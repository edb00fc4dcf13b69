/-
HearthVault.Cli.TwinRuns — commands that run beside each other on twin vaults.

Two runs of one command on one machine make the same calls, as long as what
differs in the two vaults is only handed on. The vault file is twins in both
worlds, the inputs of the command are the same, and between `lock_and_refresh`
and `save` the file in each world is the one that was loaded or is not, in
both alike (`TwinFile`). So saving succeeds in both or in none, and what is
verified afterwards is what both commands have stored.
-/
import HearthVault.Cli.Footprints
import HearthVault.Store.Twins

namespace HearthVault

open Files Symbolic Calendar

/-! ## Files beside each other -/

/-- A file in two worlds: twins, the same if it is an input, and for the vault
file the one that was loaded in both or in none. -/
structure TwinFile (I : Set Path) (path : Path) (loaded : Option (VaultFileV2 × VaultFileV2))
    (q : Path) (x y : Option Contents) : Prop where
  twins : Option.Rel Contents.Twins x y
  inputs : q ∈ I → x = y
  loaded : q = path → ∀ file file', loaded = some (file, file') →
    (x = some (.v2 file) ↔ y = some (.v2 file'))

/-- Two worlds with such files. -/
abbrev TwinDisks (I : Set Path) (path : Path) (loaded : Option (VaultFileV2 × VaultFileV2)) :
    Disk → Disk → Prop :=
  World.Alike (TwinFile I path loaded)

section

variable {I : Set Path} {path : Path} {loaded : Option (VaultFileV2 × VaultFileV2)} {m : Machine}
  {q : Path}

theorem optionRel_twins (c : Option Contents) : Option.Rel Contents.Twins c c := by
  cases c with
  | none => exact .none
  | some c => exact .some (.same c)

/-- Twin files are there in both worlds, or in neither. -/
theorem twinFile_lax : Fx.Lax (TwinFile I path loaded) where
  present h := by cases h.twins <;> rfl
  absent _ := ⟨.none, fun _ => rfl, fun _ _ _ _ => by simp⟩
  torn _ s := by
    refine ⟨.some (.same _), fun _ => rfl, fun _ file file' _ => ?_⟩
    constructor
    · exact nofun
    · exact nofun

/-- What is the same in both worlds, where no file was loaded. -/
theorem TwinFile.same (c : Option Contents) : TwinFile I path none q c c :=
  ⟨optionRel_twins c, fun _ => rfl, fun _ _ _ h => nomatch h⟩

theorem TwinFile.of_twins {c d : Contents} (h : c.Twins d) (hq : q ∉ I) :
    TwinFile I path none q (some c) (some d) :=
  ⟨.some h, fun hmem => absurd hmem hq, fun _ _ _ h => nomatch h⟩

/-- It does not matter any more what was loaded. -/
theorem TwinFile.forget {x y : Option Contents} (h : TwinFile I path loaded q x y) :
    TwinFile I path none q x y :=
  ⟨h.twins, h.inputs, fun _ _ _ h => nomatch h⟩

/-- What was loaded need not be remembered. -/
theorem TwinDisks.forget {w v : Disk} (h : TwinDisks I path loaded w v) :
    TwinDisks I path none w v :=
  World.Alike.mono h fun _ _ _ => TwinFile.forget

theorem TwinFile.contents {c d : Contents} (h : TwinFile I path loaded q (some c) (some d)) :
    c.Twins d := by
  cases h.twins with
  | some h => exact h

end

/-! ## The file primitives -/

section

variable {ν : Type} [Torn ν] {R : Path → Option ν → Option ν → Prop} {m : Machine} {path : Path}
  {c d : ν}

/-- Files that are written in the same way. -/
theorem writePrivate_related (hlax : Fx.Lax R) (hpath : R path (some c) (some d))
    (htmp : R (tmpPath path m.pid) (some c) (some d)) :
    Fx.Related m (World.Alike R) (writePrivate path c) (writePrivate path d) fun _ _ => True := by
  set tmp := tmpPath path m.pid with htmpDef
  have hremove : Fx.Related m (World.Alike R) (Fx.attempt (Fx.remove tmp))
      (Fx.attempt (Fx.remove tmp)) (Caught fun _ _ => True) :=
    (Fx.Related.remove hlax).attempt
  have hclean : ∀ e : String, Fx.Related m (World.Alike R)
      (do let _ ← Fx.attempt (Fx.remove tmp); Fx.ofResult (bail (α := Unit) e))
      (do let _ ← Fx.attempt (Fx.remove tmp); Fx.ofResult (bail (α := Unit) e)) fun _ _ => True :=
    fun e => hremove.bind fun _ _ _ => .ofResult rfl
  refine Fx.Related.pid.bind ?_
  rintro _ _ ⟨rfl, rfl⟩
  rw [← htmpDef]
  refine hremove.bind fun _ _ _ => (Fx.Related.createNew hlax).bind fun _ _ _ => ?_
  -- The rename moves the bytes just written.
  refine Fx.Pairs.related (Fx.Pairs.attempt_bind
    ((Fx.Pairs.fill hlax htmp).bind fun _ _ => Fx.Pairs.sync) (fun _ _ => ?_)
    fun e => (hclean e).pairs)
  refine Fx.Pairs.attempt_bind (Fx.Pairs.rename hlax hpath) (fun _ _ => ?_)
    fun e => (hclean e).pairs
  refine Fx.Related.pairs ?_
  have hopen : Fx.Related m (World.Alike R) (Fx.openDir path.dir) (Fx.openDir path.dir)
      fun _ _ => True := .check fun _ _ _ => trivial
  refine hopen.attempt.bind fun r s h => ?_
  cases h with
  | ok h => exact .check fun _ _ _ => trivial
  | error e => exact .pure trivial

/-- What was written is there. -/
theorem writePrivate_pairs (hlax : Fx.Lax R) (hpath : R path (some c) (some d))
    (htmp : R (tmpPath path m.pid) (some c) (some d)) :
    Fx.Pairs m (World.Alike R) (writePrivate path c) (writePrivate path d)
      (fun _ _ => Fx.Holding R path c d) (World.Alike R) := by
  intro w v hR
  have hrelated : Fx.Related m (World.Alike R) (writePrivate path c) (writePrivate path d)
      fun _ _ => True := writePrivate_related hlax hpath htmp
  have hleft := writePrivate_atomic m path c w w (.refl _ _)
  have hright := writePrivate_atomic m path d v v (.refl _ _)
  obtain ⟨a, b, w', v', hw, hv, hab⟩ | ⟨e, w', v', hw, hv, hR'⟩ := (hrelated.pairs w v hR).cases
  · rw [hw] at hleft
    rw [hv] at hright
    rw [hw, hv]
    exact ⟨hab.2, hleft.2, hright.2⟩
  · rw [hw, hv]
    exact ⟨rfl, hR'⟩

end

/-! ## The programs of the store -/

section

variable {I : Set Path} {path : Path} {loaded : Option (VaultFileV2 × VaultFileV2)} {m : Machine}
  {K : Set Str} {store store' : VaultStore}

theorem acquire_related (q : Path) :
    Fx.Related m (TwinDisks I path loaded) (acquire q) (acquire q) fun _ _ => True :=
  Fx.Related.bind (A := fun _ _ => True) (.check fun _ _ _ => trivial) fun _ _ _ =>
    .check fun _ _ _ => trivial

/-- The lock is taken in both runs or in none. -/
theorem underLock_pairs {α : Type} {held : Bool} {q : Path} {x y : Prog α}
    {Q : α → α → Disk → Disk → Prop} {E : Disk → Disk → Prop}
    (hx : Fx.Pairs m (TwinDisks I path loaded) x y Q E)
    (hE : ∀ w v, TwinDisks I path loaded w v → E w v) :
    Fx.Pairs m (TwinDisks I path loaded) (underLock held q x) (underLock held q y) Q E := by
  cases held with
  | true => exact hx
  | false =>
    refine Fx.Pairs.bind ((acquire_related q).pairs.weaken (fun _ _ hw => hw)
      (fun _ _ _ _ hw => hw.2) hE) fun _ _ => hx.releasing

theorem underLock_related {α : Type} {held : Bool} {q : Path} {x y : Prog α} {A : α → α → Prop}
    (hx : Fx.Related m (TwinDisks I path loaded) x y A) :
    Fx.Related m (TwinDisks I path loaded) (underLock held q x) (underLock held q y) A := by
  cases held with
  | true => exact hx
  | false => exact (acquire_related q).bind fun _ _ _ => hx.releasing

theorem restrictToOwner_related (q : Path) : Fx.Related m (TwinDisks I path loaded)
    (restrictToOwner q) (restrictToOwner q) fun _ _ => True :=
  (Fx.Related.present twinFile_lax).bind fun _ _ _ =>
    (Fx.Related.present twinFile_lax).mono fun _ _ _ => trivial

theorem readToString_related (q : Path) : Fx.Related m (TwinDisks I path loaded)
    (readToString q) (readToString q) fun c d => TwinFile I path loaded q (some c) (some d) := by
  refine (Fx.Related.read twinFile_lax).bind fun c d h => ?_
  cases h.contents with
  | same =>
    cases c with
    | binary bytes => exact .ofResult rfl
    | _ => exact .pure h
  | v1 => exact .pure h
  | v2 => exact .pure h

/-- What was read is held by the files. -/
theorem readToString_pairs (q : Path) : Fx.Pairs m (TwinDisks I path loaded) (readToString q)
    (readToString q) (Fx.Holding (TwinFile I path loaded) q) (TwinDisks I path loaded) := by
  refine (Fx.Pairs.read twinFile_lax).bind fun c d w v hw => ?_
  have htwins : TwinFile I path loaded q (some c) (some d) := by
    rw [← hw.left, ← hw.right]
    exact hw.alike.fs q
  cases htwins.contents with
  | same =>
    cases c with
    | binary bytes => exact ⟨rfl, hw.alike⟩
    | _ => exact hw
  | v1 => exact hw
  | v2 => exact hw

/-- Reading and computing on what was read. -/
theorem readThen_related {α : Type} {A : α → α → Prop} {f : Contents → Result α}
    (hf : ∀ c d, c.Twins d → Concur A (f c) (f d)) (q : Path) :
    Fx.Related m (TwinDisks I path loaded) (do let c ← readToString q; Fx.ofResult (f c))
      (do let c ← readToString q; Fx.ofResult (f c)) A :=
  (readToString_related q).bind fun c d h => .ofResult (hf c d h.contents)

theorem writeTwins_related {q : Path} (hq : q ∉ I) {c d : Contents} (h : c.Twins d) :
    Fx.Related m (TwinDisks I path none) (Fx.write q c) (Fx.write q d) fun _ _ => True :=
  .write twinFile_lax (.of_twins h hq)

/-- The backup of a v1 vault is a twin too. -/
theorem backupV1_related (hI : ∀ q ∈ I, q ∉ vaultFiles path) (passphrase : Str) :
    Fx.Related m (TwinDisks I path none) (backupV1 path passphrase) (backupV1 path passphrase)
      (VaultBody.Twins ∅) := by
  have hbackup : backupPathFor path ∉ I := fun hq => hI _ hq (.inr (.inl rfl))
  refine (readToString_related path).bind fun c d h => ?_
  refine Fx.Related.bind (.ofResult (parseV1_twins h.contents)) fun file file' hfile => ?_
  refine Fx.Related.bind (.ofResult (convertV1_twins hfile passphrase)) fun body body' hbody => ?_
  refine (writeTwins_related hbackup h.contents).bind fun _ _ _ => ?_
  exact (restrictToOwner_related _).mapErr.bind fun _ _ _ => .pure hbody

/-- A migration of twin bodies writes twin files. -/
theorem replaceV1_related (hI : ∀ q ∈ I, q ∉ vaultFiles path) (passphrase : Str)
    {body body' : VaultBody} (h : body.Twins ∅ body') :
    Fx.Related m (TwinDisks I path none) (replaceV1 path passphrase body)
      (replaceV1 path passphrase body') fun _ _ => True := by
  have hpath : path ∉ I := fun hq => hI _ hq (.inl rfl)
  refine Fx.Related.random.bind_eq fun key => Fx.Related.random.bind_eq fun salt => ?_
  refine Fx.Related.random.bind_eq fun nonce => Fx.Related.random.bind_eq fun nonce' => ?_
  refine Fx.Related.bind (.ofResult (migratedFile_twins h passphrase key salt nonce nonce'))
    fun file file' hfile => ?_
  refine (writeTwins_related hpath (.v2 hfile)).bind fun _ _ _ => ?_
  exact (restrictToOwner_related _).mapErr

/-- A v1 file is converted to twins and replaced. -/
theorem migrateV1ToV2_related (hI : ∀ q ∈ I, q ∉ vaultFiles path) (passphrase : Str) :
    Fx.Related m (TwinDisks I path none) (migrateV1ToV2 path passphrase)
      (migrateV1ToV2 path passphrase) fun _ _ => True :=
  (backupV1_related hI passphrase).bind fun _ _ h => replaceV1_related hI passphrase h

/-- Twin stores after they were saved. -/
structure Saved (I : Set Path) (path : Path) (K : Set Str) (store store' : VaultStore)
    (w v : Disk) : Prop where
  twins : store.Twins K store'
  place : store.path = path
  files : ∃ nonce, Fx.Holding (TwinFile I path none) path (.v2 (store.toFile nonce))
    (.v2 (store'.toFile nonce)) w v

/-- A vault that was loaded is unchanged in both worlds or in none. -/
theorem unchanged_twins {file file' : VaultFileV2} (hleft : store.loadedFp = some ⟨.v2 file⟩)
    (hright : store'.loadedFp = some ⟨.v2 file'⟩) {r s : Except String Contents}
    (h : Caught (fun c d => TwinFile I path (some (file, file')) path (some c) (some d)) r s) :
    store'.unchanged s.toOption = store.unchanged r.toOption := by
  unfold VaultStore.unchanged
  rw [hleft, hright]
  cases h with
  | error e => rfl
  | @ok c d h =>
    have hiff := h.loaded rfl file file' rfl
    rw [Bool.eq_iff_iff]
    simp only [Except.toOption, Option.map_some, beq_iff_eq, Option.some.injEq, Digest.mk.injEq]
    simpa using hiff.symm

/-- Either both stores have been loaded from what is on disk and are saved, or
neither is. -/
theorem save_pairs (hI : ∀ q ∈ I, q ∉ vaultFiles path)
    (hstore : VaultStore.InHand path loaded K store store') :
    Fx.Pairs m (TwinDisks I path loaded) store.save store'.save (Saved I path K)
      (TwinDisks I path none) := by
  obtain ⟨h, rfl, hleft, hright⟩ := hstore
  have hcheck : Fx.Related m (TwinDisks I store.path loaded)
      (Fx.when store.loadedFp.isSome do
        let onDisk ← Fx.attempt (Fx.read store.path)
        Fx.ensure (store.unchanged onDisk.toOption)
          ("vault file changed on disk since it was opened; nothing was written " ++
            "(another process saved first) -- re-run the command"))
      (Fx.when store'.loadedFp.isSome do
        let onDisk ← Fx.attempt (Fx.read store.path)
        Fx.ensure (store'.unchanged onDisk.toOption)
          ("vault file changed on disk since it was opened; nothing was written " ++
            "(another process saved first) -- re-run the command")) fun _ _ => True := by
    cases loaded with
    | none =>
      rw [hleft, hright]
      exact .when fun h => nomatch h
    | some files =>
      obtain ⟨file, file'⟩ := files
      have hsome : store'.loadedFp.isSome = store.loadedFp.isSome := by rw [hleft, hright]; rfl
      rw [hsome]
      refine .when fun _ => (Fx.Related.read twinFile_lax).attempt.bind fun r s hr => ?_
      rw [unchanged_twins hleft hright hr]
      exact Fx.Related.ensure.mono fun _ _ _ => trivial
  have hwrite : ∀ nonce, Fx.Pairs m (TwinDisks I store.path none)
      (Fx.mapErr ("failed to write vault file: " ++ ·)
        (writePrivate store.path (.v2 (store.toFile nonce))))
      (Fx.mapErr ("failed to write vault file: " ++ ·)
        (writePrivate store.path (.v2 (store'.toFile nonce))))
      (fun _ _ => Fx.Holding (TwinFile I store.path none) store.path (.v2 (store.toFile nonce))
        (.v2 (store'.toFile nonce))) (TwinDisks I store.path none) := by
    intro nonce
    refine Fx.Pairs.mapErr
      (writePrivate_pairs twinFile_lax (.of_twins (.v2 (VaultStore.toFile_twins h nonce)) ?_)
      (.of_twins (.v2 (VaultStore.toFile_twins h nonce)) ?_))
    · exact fun hq => hI _ hq (.inl rfl)
    · exact fun hq => hI _ hq (.inr (.inr ⟨_, rfl⟩))
  unfold VaultStore.save
  rw [h.lock, h.path]
  refine underLock_pairs (Fx.Pairs.bind (hcheck.pairs.weaken (fun _ _ hw => hw)
    (fun _ _ _ _ hw => hw.2.forget) fun _ _ hw => hw.forget) fun _ _ => ?_) fun _ _ hw => hw.forget
  have hmkdir : Fx.Related m (TwinDisks I store.path none) (Fx.mkdir store.path.dir)
      (Fx.mkdir store.path.dir) fun _ _ => True := .check fun _ _ _ => trivial
  refine hmkdir.pairs.bind fun _ _ => Fx.Pairs.fact fun _ => ?_
  refine Fx.Related.random.pairs.bind fun nonce nonce' => Fx.Pairs.fact ?_
  rintro rfl
  refine (hwrite nonce).bind fun _ _ => Fx.Pairs.pure fun w v hw => ?_
  exact ⟨⟨rfl, h.kdf, h.wrapPassphrase, h.wrapRecovery, h.dataKey, rfl, h.body⟩, rfl, nonce, hw⟩

/-- Under the lock both stores are what the files hold, which are known from
here on. -/
theorem lockAndRefresh_pairs (h : store.Twins K store') (hpath : store.path = path) :
    Fx.Pairs m (TwinDisks I path none) store.lockAndRefresh store'.lockAndRefresh
      (fun s t w v => ∃ file file', VaultStore.InHand path (some (file, file')) ∅ s t ∧
        TwinDisks I path (some (file, file')) w v) (TwinDisks I path none) := by
  subst hpath
  unfold VaultStore.lockAndRefresh
  rw [h.lock, h.path]
  have hacquire : Fx.Related m (TwinDisks I store.path none)
      (Fx.when (store.lock = false) (acquire store.path))
      (Fx.when (store.lock = false) (acquire store.path)) fun _ _ => True :=
    .when fun _ => acquire_related _
  refine hacquire.pairs.bind fun _ _ => Fx.Pairs.fact fun _ => ?_
  refine Fx.Pairs.bind (Fx.Pairs.mapErr (readToString_pairs store.path)) fun c d => ?_
  refine Fx.Pairs.ofResult (fun w v hw => ?_) fun w v hw => hw.alike
  have htwins : TwinFile I store.path none store.path (some c) (some d) := by
    rw [← hw.left, ← hw.right]
    exact hw.alike.fs store.path
  refine (VaultStore.refresh_twins h htwins.contents).mono ?_
  rintro s t ⟨file, file', rfl, rfl, hhand⟩
  -- The file is the one that was loaded, in both worlds.
  refine ⟨file, file', hhand, fun q => ?_, hw.alike.rng, hw.alike.ticks, hw.alike.attempts⟩
  have hfs := hw.alike.fs q
  refine ⟨hfs.twins, hfs.inputs, ?_⟩
  rintro rfl _ _ ⟨⟩
  exact iff_of_true hw.left hw.right

/-- What is verified is under known keys, so it is there in both vaults or in
none. -/
theorem verifyPersisted_pairs {s t : VaultStore} {expected : List (Str × Str)}
    (hexpected : ∀ p ∈ expected, p.1 ∈ K) :
    Fx.Pairs m (Saved I path K s t) (s.verifyPersisted expected) (t.verifyPersisted expected)
      (fun _ _ => TwinDisks I path none) (TwinDisks I path none) := by
  rintro w v ⟨htwins, rfl, nonce, hheld⟩
  have hread : Fx.Pairs m (Fx.Holding (TwinFile I s.path none) s.path (.v2 (s.toFile nonce))
      (.v2 (t.toFile nonce))) (readToString s.path) (readToString s.path)
      (fun c d w v => (c = .v2 (s.toFile nonce) ∧ d = .v2 (t.toFile nonce)) ∧
        TwinDisks I s.path none w v) (TwinDisks I s.path none) := by
    refine Fx.Pairs.read_held.bind fun c d => Fx.Pairs.fact ?_
    rintro ⟨rfl, rfl⟩
    exact Fx.Pairs.pure fun w v hw => ⟨⟨rfl, rfl⟩, hw⟩
  have hverify : Fx.Pairs m (Fx.Holding (TwinFile I s.path none) s.path (.v2 (s.toFile nonce))
      (.v2 (t.toFile nonce))) (s.verifyPersisted expected) (t.verifyPersisted expected)
      (fun _ _ => TwinDisks I s.path none) (TwinDisks I s.path none) := by
    unfold VaultStore.verifyPersisted
    rw [htwins.path]
    refine Fx.Pairs.bind (Fx.Pairs.mapErr hread) fun c d => Fx.Pairs.fact ?_
    rintro ⟨rfl, rfl⟩
    rw [VaultStore.verifyContents_twins htwins nonce hexpected]
    exact Fx.Pairs.ofResult (fun w v hw => Concur.refl (fun _ => hw) _) fun _ _ hw => hw
  exact hverify w v hheld

/-! ## Opening -/

/-- Two new vaults are the same. -/
theorem createNew_related (hI : ∀ q ∈ I, q ∉ vaultFiles path) (passphrase : Str) :
    Fx.Related m (TwinDisks I path none) (VaultStore.createNew path passphrase)
      (VaultStore.createNew path passphrase) (VaultStore.Twins ∅) := by
  refine Fx.Related.random.bind_eq fun key => Fx.Related.random.bind_eq fun salt => ?_
  refine Fx.Related.random.bind_eq fun nonce => ?_
  refine Fx.Related.bind (A := VaultStore.InHand path none ∅) ?_ fun s t hstore => ?_
  · refine .ofResult ?_
    cases hfresh : VaultStore.fresh path passphrase key salt nonce with
    | error e => exact rfl
    | ok s =>
      simp only [VaultStore.fresh, result_bind_eq_ok] at hfresh
      obtain ⟨slot, -, ⟨⟩⟩ := hfresh
      exact ⟨.refl _, rfl, rfl, rfl⟩
  · refine Fx.Pairs.related ((save_pairs hI hstore).bind fun s t => Fx.Pairs.pure fun w v hw => ?_)
    obtain ⟨htwins, -, nonce, hheld⟩ := hw
    exact ⟨⟨htwins.path, htwins.kdf, htwins.wrapPassphrase, htwins.wrapRecovery, htwins.dataKey,
      rfl, htwins.body⟩, hheld.alike⟩

/-- Opening twins with a passphrase, whether they are created, migrated or
loaded. -/
theorem openAtWithPassphrase_related (hI : ∀ q ∈ I, q ∉ vaultFiles path) (passphrase : Str) :
    Fx.Related m (TwinDisks I path none) (VaultStore.openAtWithPassphrase path passphrase)
      (VaultStore.openAtWithPassphrase path passphrase) (VaultStore.Twins ∅) := by
  have hload : Fx.Related m (TwinDisks I path none) (VaultStore.loadV2 path passphrase)
      (VaultStore.loadV2 path passphrase) (VaultStore.Twins ∅) :=
    readThen_related (fun _ _ h => VaultStore.loadV2Contents_twins h passphrase) path
  have hversion : ∀ {c d : Contents}, c.Twins d → Fx.Related m (TwinDisks I path none)
      (Fx.ofResult (hasVersion c)) (Fx.ofResult (hasVersion d)) Eq := fun h => by
    rw [hasVersion_twins h]
    exact .ofResult (Concur.refl (fun _ => rfl) _)
  refine (Fx.Related.pathExists twinFile_lax).bind_eq fun existed => ?_
  cases existed with
  | true =>
    refine (readToString_related path).bind fun c d h =>
      (hversion h.contents).bind_eq fun versioned => ?_
    refine Fx.Related.bind (Fx.Related.when fun _ => underLock_related ?_) fun _ _ _ => hload
    refine (readToString_related path).bind fun c d h =>
      (hversion h.contents).bind_eq fun versioned => ?_
    exact .when fun _ => migrateV1ToV2_related hI passphrase
  | false =>
    refine (acquire_related path).bind fun _ _ _ =>
      (Fx.Related.pathExists twinFile_lax).bind_eq fun existed => ?_
    cases existed with
    | true => exact Fx.Related.unlock.bind fun _ _ _ => hload
    | false => exact (createNew_related hI passphrase).releasing

/-- A way to open fails in both runs or in none. -/
theorem openOr_related {attempt? : Option (Prog VaultStore)} {next : Prog VaultStore}
    (hattempt : ∀ x, attempt? = some x →
      Fx.Related m (TwinDisks I path loaded) x x (VaultStore.Twins ∅))
    (hnext : Fx.Related m (TwinDisks I path loaded) next next (VaultStore.Twins ∅)) :
    Fx.Related m (TwinDisks I path loaded) (openOr attempt? next) (openOr attempt? next)
      (VaultStore.Twins ∅) := by
  cases attempt? with
  | none => exact hnext
  | some x =>
    refine (hattempt x rfl).attempt.bind fun r s h => ?_
    cases h with
    | ok h => exact .pure h
    | error e => exact hnext

/-- Both runs open the vault, or neither does. -/
theorem openVault_related (hI : ∀ q ∈ I, q ∉ vaultFiles path) (unlock : Unlock) :
    Fx.Related m (TwinDisks I path none) (openVault path unlock) (openVault path unlock)
      fun s t => s.Twins ∅ t ∧ s.path = path := by
  have hopen : Fx.Related m (TwinDisks I path none) (openVault path unlock)
      (openVault path unlock) (VaultStore.Twins ∅) := by
    refine openOr_related (fun x hx => ?_) (openOr_related (fun x hx => ?_) ?_)
    · obtain ⟨p, -, rfl⟩ := Option.map_eq_some_iff.mp hx
      exact openAtWithPassphrase_related hI p
    · obtain ⟨key, -, rfl⟩ := Option.map_eq_some_iff.mp hx
      exact readThen_related (fun _ _ h => VaultStore.openWrapKeyContents_twins h key) path
    · exact openAtWithPassphrase_related hI unlock.passphrase
  exact hopen.value fun _ _ _ hrun => (openVault_footprint subset_rfl unlock).run_value hrun

end

end HearthVault
