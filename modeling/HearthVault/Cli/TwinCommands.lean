/-
HearthVault.Cli.TwinCommands — each mutating command, run beside itself on
twin vaults.

What a command stores comes from its inputs, so it is the same in both
vaults; the loops carry the set `K` of keys that are known to be the same, and
each pair that is stored joins it. `rename` moves a value without looking at
it, and `retier` refuses to take a key out of tier 4. The commands end alike,
with the vault files twins again.

Most lines of a command keep the disks twins, and have one rule each with
`Fx.Related`. From the refresh under the lock to the save it is also known
which two files the stores were read from (`loaded`), and the save forgets
them. A precondition that changes so is said with `Fx.Pairs`: `changing` goes
there from a rule for one line, and `following` comes back after the save.
-/
import HearthVault.Cli.AdoptSafety
import HearthVault.Cli.TwinRuns

namespace HearthVault

open Files Symbolic Calendar

/-- The keys of some pairs. -/
def keysOf (pairs : List (Str × Str)) : Set Str :=
  {key | ∃ value, (key, value) ∈ pairs}

section

variable {I : Set Path} {path : Path} {loaded : Option (VaultFileV2 × VaultFileV2)} {m : Machine}
  {K : Set Str} {s t : VaultStore}

/-! ## Changes of a store -/

/-- A body operation makes of two stores what it makes of their bodies. -/
theorem onBody_related {K' : Set Str} (h : VaultStore.InHand path loaded K s t)
    {f f' : VaultBody → Result VaultBody}
    (hf : Concur (VaultBody.Twins K') (f s.body) (f' t.body)) :
    Fx.Related m (TwinDisks I path loaded) (Fx.ofResult (s.onBody f)) (Fx.ofResult (t.onBody f'))
      (VaultStore.InHand path loaded K') :=
  .ofResult (h.onBody hf)

/-- A key that was set holds the same value in both. -/
theorem set_related (h : VaultStore.InHand path loaded K s t) (key value : Str) (tier : UInt8) :
    Fx.Related m (TwinDisks I path loaded) (s.set key value tier) (t.set key value tier)
      (VaultStore.InHand path loaded (insert key K)) :=
  Fx.Related.now.bind_eq fun _ => onBody_related h (setEntry_twins h.twins.body value tier)

/-- A rotation policy does not look at the value. -/
theorem applyRotation_related (h : VaultStore.InHand path loaded K s t) (days : Option UInt32)
    (key : Str) : Fx.Related m (TwinDisks I path loaded) (applyRotation days key s)
      (applyRotation days key t) (VaultStore.InHand path loaded K) := by
  cases days with
  | none => exact .pure h
  | some days =>
    exact Fx.Related.now.bind_eq fun _ => onBody_related h (setRotation_twins h.twins.body _)

/-- Neither does a due date. -/
theorem applyExpiry_related (h : VaultStore.InHand path loaded K s t) (due : Option Str)
    (key : Str) : Fx.Related m (TwinDisks I path loaded) (applyExpiry due key s)
      (applyExpiry due key t) (VaultStore.InHand path loaded K) := by
  cases due with
  | none => exact .pure h
  | some due => exact onBody_related h (setExpiry_twins h.twins.body _)

/-- On the pairs: the keys of those that were set join the known ones. -/
theorem setAll_related {tier : Option UInt8} {days : Option UInt32} {due : Option Str}
    {pairs : List (Str × Str)} (h : VaultStore.InHand path loaded K s t) :
    Fx.Related m (TwinDisks I path loaded) (setAll tier days due pairs s)
      (setAll tier days due pairs t) (VaultStore.InHand path loaded (K ∪ keysOf pairs)) := by
  induction pairs generalizing K s t with
  | nil => exact .pure (h.mono fun key hkey => hkey.resolve_right fun ⟨_, hnil⟩ => nomatch hnil)
  | cons pair rest ih =>
    obtain ⟨key, value⟩ := pair
    unfold setAll
    dsimp only
    rw [h.twins.body.tierOf]
    refine (set_related h key value _).bind fun s t h => ?_
    refine (applyRotation_related h days key).bind fun s t h => ?_
    refine (applyExpiry_related h due key).bind fun s t h => (ih h).mono fun s t h => h.mono ?_
    -- a known key, the key that was set just now, or one of the rest
    rintro k (hk | ⟨v, hv⟩)
    · exact .inl (.inr hk)
    · obtain heq | hv := List.mem_cons.mp hv
      · exact .inl (.inl (congrArg Prod.fst heq))
      · exact .inr ⟨v, hv⟩

/-- Runs that store the same pairs. -/
def StoresAlike (path : Path) (loaded : Option (VaultFileV2 × VaultFileV2)) (K : Set Str)
    (r r' : VaultStore × List (Str × Str)) : Prop :=
  r'.2 = r.2 ∧ VaultStore.InHand path loaded (K ∪ keysOf r.2) r.1 r'.1

/-- Nothing stored, nothing known. -/
theorem StoresAlike.nil (h : VaultStore.InHand path loaded K s t) :
    StoresAlike path loaded K (s, []) (t, []) :=
  ⟨rfl, h.mono fun _ hkey => hkey.resolve_right fun ⟨_, hnil⟩ => nomatch hnil⟩

/-- A pair that was stored makes its key known. -/
theorem StoresAlike.cons {key value : Str} {r r' : VaultStore × List (Str × Str)}
    (h : StoresAlike path loaded (insert key K) r r') :
    StoresAlike path loaded K (r.1, (key, value) :: r.2) (r'.1, (key, value) :: r'.2) := by
  refine ⟨congrArg ((key, value) :: ·) h.1, h.2.mono ?_⟩
  rintro k (hk | ⟨v, hv⟩)
  · exact .inl (.inr hk)
  · obtain heq | hv := List.mem_cons.mp hv
    · exact .inl (.inl (congrArg Prod.fst heq))
    · exact .inr ⟨v, hv⟩

/-- On the pairs. Whether a key is there is the same in both vaults, so both
runs store or both skip. -/
theorem importPairs_related {pre : Str} {tier : UInt8} {force : Bool} {pairs : List (Str × Str)}
    (h : VaultStore.InHand path loaded K s t) :
    Fx.Related m (TwinDisks I path loaded) (importPairs pre tier force pairs s)
      (importPairs pre tier force pairs t) (StoresAlike path loaded K) := by
  induction pairs generalizing K s t with
  | nil => exact .pure (.nil h)
  | cons pair rest ih =>
    obtain ⟨name, value⟩ := pair
    unfold importPairs
    dsimp only
    rw [h.twins.body.has]
    split
    · exact ih h
    · exact (set_related h _ value tier).bind fun s t h => (ih h).bind fun r r' hr => .pure hr.cons

/-- On the entries, in the same way. -/
theorem receiveAll_related {pre : Option Str} {force : Bool} {entries : List SharedEntry}
    (h : VaultStore.InHand path loaded K s t) :
    Fx.Related m (TwinDisks I path loaded) (receiveAll pre force entries s)
      (receiveAll pre force entries t) (StoresAlike path loaded K) := by
  induction entries generalizing K s t with
  | nil => exact .pure (.nil h)
  | cons entry rest ih =>
    unfold receiveAll
    dsimp only
    rw [h.twins.body.has]
    split
    · exact ih h
    · exact (set_related h _ _ _).bind fun s t h => (ih h).bind fun r r' hr => .pure hr.cons

end

/-! ## Files other than the vault -/

section

variable [JsonText] {I : Set Path} {path : Path} {loaded : Option (VaultFileV2 × VaultFileV2)}
  {m : Machine} {q : Path}

/-- An input reads the same. -/
theorem readText_related (hq : q ∈ I) :
    Fx.Related m (TwinDisks I path loaded) (readText q) (readText q) Eq := by
  refine (Fx.Related.read twinFile_lax).bind fun c d h => ?_
  obtain rfl := Option.some.inj (h.inputs hq)
  exact .ofResult (Concur.refl (fun _ => rfl) _)

/-- An input has one size, so as many zeros are written over it. -/
theorem secureDeleteFile_related (hq : q ∈ I) :
    Fx.Related m (TwinDisks I path none) (secureDeleteFile q) (secureDeleteFile q)
      fun _ _ => True := by
  refine Fx.Related.bind_eq (.check fun w v hR => ?_) fun size => ?_
  · rw [(hR.fs q).inputs hq]
    exact Concur.refl (fun _ => rfl) _
  refine (Fx.Related.present twinFile_lax).bind fun _ _ _ => ?_
  refine (Fx.Related.fill twinFile_lax (.same _)).bind fun _ _ _ => ?_
  refine Fx.Related.bind (A := fun _ _ => True) (.check fun _ _ _ => trivial) fun _ _ _ => ?_
  exact .remove twinFile_lax

/-- `.gitignore` is an input, and it is written alike. -/
theorem addToGitignore_related (hI : gitignore ∈ I) (entry : Str) :
    Fx.Related m (TwinDisks I path none) (addToGitignore entry) (addToGitignore entry)
      fun _ _ => True := by
  refine (Fx.Related.pathExists twinFile_lax).bind_eq fun existed => ?_
  cases existed with
  | false => exact .pure trivial
  | true =>
    refine (readText_related hI).attempt.bind fun r s h => ?_
    cases h with
    | error e => exact .pure trivial
    | ok h =>
      subst h
      dsimp only
      split
      · exact .pure trivial
      · exact (Fx.Related.write twinFile_lax (.same _)).attempt.bind fun _ _ _ => .pure trivial

end

section

variable {path : Path} {loaded : Option (VaultFileV2 × VaultFileV2)} {m : Machine}

/-- The vault file may be copied anywhere but to an input. -/
theorem TwinFile.copied {I : Set Path} {q : Path} {x y : Option Contents}
    (h : TwinFile I path loaded path x y) (hq : q ∉ I) : TwinFile I path loaded q x y :=
  ⟨h.twins, fun hmem => absurd hmem hq, fun _ => h.loaded rfl⟩

/-- The snapshots are twins, as the files are that they copy. -/
theorem writeBackup_related {I : Set Path}
    (hsnapshot : ∀ now, ∀ q ∈ I, q ∉ privateFiles (backupTarget path now)) :
    Fx.Related m (TwinDisks I path loaded) (writeBackup path) (writeBackup path)
      fun _ _ => True := by
  refine (Fx.Related.pathExists twinFile_lax).bind_eq fun existed => ?_
  refine Fx.Related.ensure.bind fun _ _ _ => Fx.Related.now.bind_eq fun now => ?_
  refine (Fx.Related.pathExists twinFile_lax).bind_eq fun taken => ?_
  refine Fx.Related.ensure.bind fun _ _ _ => (Fx.Related.read twinFile_lax).bind fun c d h => ?_
  refine Fx.Related.bind (A := fun _ _ => True) (.check fun _ _ _ => trivial) fun _ _ _ => ?_
  -- neither the snapshot nor its temporary file is an input
  have htarget : backupTarget path now ∉ I := fun hq => hsnapshot now _ hq (.inl rfl)
  have htmp : tmpPath (backupTarget path now) m.pid ∉ I := fun hq =>
    hsnapshot now _ hq (.inr ⟨_, rfl⟩)
  exact (writePrivate_related twinFile_lax (h.copied htarget) (h.copied htmp)).mapErr.bind
    fun _ _ _ => .pure trivial

end

/-! ## Adopting -/

section

variable {I : Set Path} {path : Path} {loaded : Option (VaultFileV2 × VaultFileV2)} {m : Machine}
  {pre : Str} {force : Bool}

/-- States of the loop that differ in their stores only. -/
def AdoptTwins (path : Path) (loaded : Option (VaultFileV2 × VaultFileV2)) (s t : AdoptState) :
    Prop :=
  ∃ store, t = { s with store } ∧ VaultStore.InHand path loaded (keysOf s.storedPairs) s.store store

/-- One finding: the line is the same, and so is what becomes of it. -/
theorem adoptFinding_related {f : Finding} {s t : AdoptState} (h : AdoptTwins path loaded s t) :
    Fx.Related m (TwinDisks I path loaded) (adoptFinding pre force f s) (adoptFinding pre force f t)
      (AdoptTwins path loaded) := by
  obtain ⟨store, rfl, hstore⟩ := h
  have herror : ∀ what : String, Fx.Related m (TwinDisks I path loaded)
      (Pure.pure (s.error f what)) (Pure.pure (({ s with store } : AdoptState).error f what))
      (AdoptTwins path loaded) :=
    fun what => .pure ⟨store, rfl, hstore⟩
  unfold adoptFinding
  dsimp only
  -- no such line, no assignment on it, another value under the key, the same
  -- value, a new key
  cases s.lines[f.lineNumber - 1]? with
  | none => exact herror _
  | some line =>
    dsimp only
    cases (parseDotenv line).head? with
    | none => exact herror _
    | some pair =>
      obtain ⟨name, value⟩ := pair
      dsimp only
      rw [hstore.twins.body.has]
      split
      · exact herror _
      · split
        · exact .pure ⟨store, rfl, hstore⟩
        · refine (set_related hstore _ value tierUseOnly).bind fun u v h =>
            .pure ⟨v, rfl, h.mono ?_⟩
          rintro k ⟨x, hx⟩
          obtain hx | hx := List.mem_append.mp hx
          · exact .inr ⟨x, hx⟩
          · exact .inl (congrArg Prod.fst (List.mem_singleton.mp hx))

/-- On the findings of a file. -/
theorem adoptInFile_related {findings : List Finding} {s t : AdoptState}
    (h : AdoptTwins path loaded s t) : Fx.Related m (TwinDisks I path loaded)
      (adoptInFile pre force findings s) (adoptInFile pre force findings t)
      (AdoptTwins path loaded) := by
  induction findings generalizing s t with
  | nil => exact .pure h
  | cons f rest ih => exact (adoptFinding_related h).bind fun s t h => ih h

/-- On the files: both runs defer the same rewrites. -/
theorem adoptFiles_related [JsonText] {files : List (Path × List Finding)} {s t : AdoptState}
    (h : AdoptTwins path loaded s t) (hfiles : ∀ file ∈ files, file.1 ∈ I) :
    Fx.Related m (TwinDisks I path loaded) (adoptFiles pre force files s)
      (adoptFiles pre force files t) fun r r' => AdoptTwins path loaded r.1 r'.1 ∧ r'.2 = r.2 := by
  induction files generalizing s t with
  | nil => exact .pure ⟨h, rfl⟩
  | cons file rest ih =>
    obtain ⟨hfile, hrest⟩ := List.forall_mem_cons.mp hfiles
    obtain ⟨store, rfl, hstore⟩ := h
    refine (readText_related hfile).attempt.bind fun r r' hr => ?_
    cases hr with
    | error e => exact ih ⟨store, rfl, hstore⟩ hrest
    | ok hr =>
      subst hr
      dsimp only
      refine Fx.Related.bind (adoptInFile_related ⟨store, rfl, hstore⟩) fun s t h => ?_
      obtain ⟨store, rfl, hstore⟩ := h
      refine (ih ⟨store, rfl, hstore⟩ hrest).bind ?_
      rintro ⟨s, writes⟩ ⟨t, _⟩ ⟨h, rfl⟩
      exact .pure ⟨h, rfl⟩

/-- Both runs write the same texts. -/
theorem rewriteFiles_related {writes : List (Path × Str)} : Fx.Related m (TwinDisks I path none)
    (rewriteFiles writes) (rewriteFiles writes) fun _ _ => True := by
  induction writes with
  | nil => exact .pure trivial
  | cons write rest ih => exact (Fx.Related.write twinFile_lax (.same _)).bind fun _ _ _ => ih

end

/-! ## The commands -/

section

variable {I : Set Path} {path : Path} {loaded : Option (VaultFileV2 × VaultFileV2)} {m : Machine}
  {K : Set Str} {s t : VaultStore} {α β : Type} {x : Prog α} {y : Prog β} {A : α → β → Prop}

/-- A change before the vault is saved. -/
theorem changing (h : Fx.Related m (TwinDisks I path loaded) x y A) :
    Fx.Pairs m (TwinDisks I path loaded) x y (fun a b w v => A a b ∧ TwinDisks I path loaded w v)
      (TwinDisks I path none) :=
  h.pairs.weaken (fun _ _ hw => hw) (fun _ _ _ _ hw => hw) fun _ _ hw => hw.forget

/-- What follows when the vault is saved. -/
theorem following (h : Fx.Related m (TwinDisks I path none) x y A) :
    Fx.Pairs m (TwinDisks I path none) x y (fun _ _ => TwinDisks I path none)
      (TwinDisks I path none) :=
  h.pairs.weaken (fun _ _ hw => hw) (fun _ _ _ _ hw => hw.2) fun _ _ hw => hw

/-- Saving and verifying. What is verified are known keys, whose values are the
same. -/
theorem commit_pairs (hI : ∀ q ∈ I, q ∉ vaultFiles path) {expected : List (Str × Str)}
    (h : VaultStore.InHand path loaded K s t) (hexpected : ∀ p ∈ expected, p.1 ∈ K) :
    Fx.Pairs m (TwinDisks I path loaded) (do let s ← s.save; s.verifyPersisted expected)
      (do let t ← t.save; t.verifyPersisted expected) (fun _ _ => TwinDisks I path none)
      (TwinDisks I path none) :=
  (save_pairs hI h).bind fun _ _ => verifyPersisted_pairs hexpected

/-- Saving without verifying. -/
theorem saveOnly_pairs (hI : ∀ q ∈ I, q ∉ vaultFiles path)
    (h : VaultStore.InHand path loaded K s t) :
    Fx.Pairs m (TwinDisks I path loaded) (do let _ ← s.save : Prog Unit) (do let _ ← t.save)
      (fun _ _ => TwinDisks I path none) (TwinDisks I path none) := by
  refine (save_pairs hI h).bind fun _ _ => Fx.Pairs.pure fun w v hw => ?_
  obtain ⟨-, -, nonce, hheld⟩ := hw
  exact hheld.alike

/-- Under the lock both runs have what is in the file. -/
theorem refreshed_related (h : s.Twins ∅ t) (hplace : s.path = path)
    {f g : VaultStore → Prog α} (hrest : ∀ (file file' : VaultFileV2) (s t : VaultStore),
      VaultStore.InHand path (some (file, file')) ∅ s t →
      Fx.Pairs m (TwinDisks I path (some (file, file'))) (f s) (g t)
        (fun _ _ => TwinDisks I path none) (TwinDisks I path none)) :
    Fx.Related m (TwinDisks I path none) (s.lockAndRefresh >>= f) (t.lockAndRefresh >>= g)
      fun _ _ => True := by
  refine Fx.Pairs.related (Fx.Pairs.weaken (Fx.Pairs.bind (lockAndRefresh_pairs h hplace)
    fun s t w v hw => ?_) (fun _ _ hw => hw) (fun _ _ _ _ hw => ⟨trivial, hw⟩) fun _ _ hw => hw)
  obtain ⟨file, file', hhand, hdisks⟩ := hw
  exact hrest file file' s t hhand w v hdisks

theorem explicitExpiry_related [Chrono] (expires : Option Str) :
    Fx.Related m (TwinDisks I path loaded) (explicitExpiry expires)
      (explicitExpiry expires) Eq := by
  cases expires with
  | none => exact .pure rfl
  | some input =>
    refine Fx.Related.now.bind_eq fun now => ?_
    refine Fx.Related.bind_eq (.ofResult (Concur.refl (fun _ => rfl) _)) fun due => .pure rfl

/-- `set` stores what was typed. -/
theorem cmdSet_related [Chrono] (hI : ∀ q ∈ I, q ∉ vaultFiles path) {unlock : Unlock}
    {keys : List (Str × Str)} {tier : Option UInt8}
    {days : Option UInt32} {expires : Option Str} :
    Fx.Related m (TwinDisks I path none) (cmdSet path unlock keys tier days expires)
      (cmdSet path unlock keys tier days expires) fun _ _ => True := by
  refine Fx.Related.ensure.bind fun _ _ _ => ?_
  refine (explicitExpiry_related expires).bind_eq fun expiry => ?_
  refine (openVault_related hI unlock).bind ?_
  rintro s t ⟨h, hplace⟩
  refine .when fun _ => refreshed_related h hplace fun file file' s t h => ?_
  refine (changing (setAll_related h)).bind fun s t => Fx.Pairs.fact fun h => ?_
  exact commit_pairs hI h fun p hp => .inr ⟨p.2, hp⟩

/-- `rename` moves a value without looking at it. -/
theorem cmdRename_related (hI : ∀ q ∈ I, q ∉ vaultFiles path) {unlock : Unlock}
    {source target : Str} :
    Fx.Related m (TwinDisks I path none) (cmdRename path unlock source target)
      (cmdRename path unlock source target) fun _ _ => True := by
  refine (openVault_related hI unlock).bind ?_
  rintro s t ⟨h, hplace⟩
  refine refreshed_related h hplace fun file file' s t h => ?_
  refine (changing (onBody_related h (renameEntry_twins h.twins.body))).bind fun s t =>
    Fx.Pairs.fact fun h => saveOnly_pairs hI h

/-- `cmd_retier` lets no key out of tier 4. -/
theorem retierGuard_eq_ok {key : Str} {prev : Option UInt8} {tier : UInt8} {u : Unit}
    (h : retierGuard key prev tier = .ok u) : prev = some tierSignOnly → tier = tierSignOnly := by
  rintro rfl
  by_contra hne
  simp [retierGuard, hne, bail] at h

/-- `retier` is where the twins could come apart: the values at tier 4 may
differ, and the guard keeps them there. -/
theorem cmdRetier_related (hI : ∀ q ∈ I, q ∉ vaultFiles path) {unlock : Unlock} {key : Str}
    {tier : UInt8} :
    Fx.Related m (TwinDisks I path none) (cmdRetier path unlock key tier)
      (cmdRetier path unlock key tier) fun _ _ => True := by
  refine (openVault_related hI unlock).bind ?_
  rintro s t ⟨h, hplace⟩
  refine refreshed_related h hplace fun file file' s t h => ?_
  rw [h.twins.body.tierOf]
  -- the same tier, so the same answer of the guard
  have hguard : Fx.Related m (TwinDisks I path (some (file, file')))
      (Fx.ofResult (retierGuard key (s.body.tierOf key) tier))
      (Fx.ofResult (retierGuard key (s.body.tierOf key) tier))
      fun _ _ => s.body.tierOf key = some tierSignOnly → tier = tierSignOnly := by
    refine .ofResult ?_
    cases hresult : retierGuard key (s.body.tierOf key) tier with
    | ok u => exact retierGuard_eq_ok hresult
    | error e => exact rfl
  refine (changing hguard).bind fun _ _ => Fx.Pairs.fact fun hguard => ?_
  refine (changing Fx.Related.now).bind fun now now' => Fx.Pairs.fact ?_
  rintro rfl
  exact (changing (onBody_related h (retierEntry_twins h.twins.body hguard))).bind fun s t =>
    Fx.Pairs.fact fun h => saveOnly_pairs hI h

/-- `delete` takes the key out of both. -/
theorem cmdDelete_related (hI : ∀ q ∈ I, q ∉ vaultFiles path)
    (hsnapshot : ∀ now, ∀ q ∈ I, q ∉ privateFiles (backupTarget path now)) {unlock : Unlock}
    {key : Str} {noBackup : Bool} :
    Fx.Related m (TwinDisks I path none) (cmdDelete path unlock key noBackup)
      (cmdDelete path unlock key noBackup) fun _ _ => True := by
  refine (openVault_related hI unlock).bind ?_
  rintro s t ⟨h, hplace⟩
  refine refreshed_related h hplace fun file file' s t h => ?_
  rw [h.twins.body.has]
  refine (changing Fx.Related.ensure).bind fun _ _ => Fx.Pairs.fact fun _ => ?_
  refine (changing (.when fun _ =>
    (writeBackup_related hsnapshot).attempt.bind fun _ _ _ => .pure trivial)).bind
    fun _ _ => Fx.Pairs.fact fun _ => ?_
  exact saveOnly_pairs hI (h.body (h.twins.body.erase key))

section Reading

variable [JsonText]

/-- `import` stores an input, and deletes it. -/
theorem cmdImport_related {unlock : Unlock} {file : FileArg} {key : Str} {tier : UInt8}
    (hI : ∀ q ∈ I, q ∉ vaultFiles path) (hfile : file.path ∈ I) :
    Fx.Related m (TwinDisks I path none) (cmdImport path unlock file key tier)
      (cmdImport path unlock file key tier) fun _ _ => True := by
  refine (Fx.Related.pathExists twinFile_lax).bind_eq fun existed => Fx.Related.ensure.bind
    fun _ _ _ => (readText_related hfile).bind_eq fun text => Fx.Related.ensure.bind fun _ _ _ => ?_
  refine (openVault_related hI unlock).bind ?_
  rintro s t ⟨h, hplace⟩
  refine refreshed_related h hplace fun file' file'' s t h => ?_
  refine (changing (set_related h key (Str.trim text) tier)).bind fun s t => ?_
  refine Fx.Pairs.fact fun h => ?_
  refine (save_pairs hI h).bind fun s t => ?_
  refine Fx.Pairs.bind (Fx.Pairs.mapErr (verifyPersisted_pairs fun p hp => ?_)) fun _ _ =>
    following (secureDeleteFile_related hfile)
  rw [List.mem_singleton.mp hp]
  exact Set.mem_insert key ∅

/-- `import-env` stores an input, and deletes it where it is told to. -/
theorem cmdImportEnv_related {unlock : Unlock} {file : FileArg} {pre : Option Str} {tier : UInt8}
    {keep force : Bool} (hI : ∀ q ∈ I, q ∉ vaultFiles path) (hfile : file.path ∈ I)
    (hignore : gitignore ∈ I) :
    Fx.Related m (TwinDisks I path none) (cmdImportEnv path unlock file pre tier keep force)
      (cmdImportEnv path unlock file pre tier keep force) fun _ _ => True := by
  refine (Fx.Related.pathExists twinFile_lax).bind_eq fun existed => Fx.Related.ensure.bind
    fun _ _ _ => (readText_related hfile).bind_eq fun text => Fx.Related.ensure.bind fun _ _ _ => ?_
  refine (openVault_related hI unlock).bind ?_
  rintro s t ⟨h, hplace⟩
  refine refreshed_related h hplace fun file' file'' s t h => ?_
  refine (changing (importPairs_related h)).bind ?_
  rintro ⟨s, expected⟩ ⟨t, _⟩
  refine Fx.Pairs.fact ?_
  rintro ⟨rfl, h⟩
  refine (save_pairs hI h).bind fun s t => ?_
  refine (verifyPersisted_pairs fun p hp => .inr ⟨p.2, hp⟩).bind fun _ _ => ?_
  exact following ((addToGitignore_related hignore file.text).bind fun _ _ _ =>
    .when fun _ => secureDeleteFile_related hfile)

omit [JsonText] in
/-- `receive` opens the bundle with one data key, so the payload is the same. -/
theorem cmdReceive_related {unlock : Unlock} {file : Path} {dryRun : Bool} {pre : Option Str}
    {force : Bool} (hI : ∀ q ∈ I, q ∉ vaultFiles path) (hfile : file ∈ I) :
    Fx.Related m (TwinDisks I path none) (cmdReceive path unlock file dryRun pre force)
      (cmdReceive path unlock file dryRun pre force) fun _ _ => True := by
  refine (Fx.Related.mapErr (Fx.Related.read twinFile_lax)).bind fun c d h => ?_
  obtain rfl := Option.some.inj (h.inputs hfile)
  have hsame : ∀ {α : Type} (r : Result α), Fx.Related m (TwinDisks I path none) (Fx.ofResult r)
      (Fx.ofResult r) Eq := fun r => .ofResult (Concur.refl (fun _ => rfl) r)
  refine (hsame _).bind_eq fun bundle => (openVault_related hI unlock).bind ?_
  rintro s t ⟨h, hplace⟩
  rw [VaultStore.shareIdentitySeed, VaultStore.shareIdentitySeed, h.dataKey]
  refine (hsame _).bind_eq fun payload => .when fun _ => ?_
  refine refreshed_related h hplace fun file' file'' s t h => ?_
  refine (changing (receiveAll_related h)).bind ?_
  rintro ⟨s, _⟩ ⟨t, stored⟩
  refine Fx.Pairs.fact ?_
  rintro ⟨rfl, h⟩
  dsimp only
  -- nothing stored is nothing saved
  by_cases hstored : stored ≠ []
  · rw [Fx.when, Fx.when, if_pos hstored, if_pos hstored]
    exact commit_pairs hI h fun p hp => .inr ⟨p.2, hp⟩
  · rw [Fx.when, Fx.when, if_neg hstored, if_neg hstored]
    exact Fx.Pairs.pure fun _ _ hw => hw.forget

/-- Adopting: the files with findings are inputs. -/
theorem adoptFindings_related {unlock : Unlock} {findings : List Finding} {pre : Str} {force : Bool}
    (hI : ∀ q ∈ I, q ∉ vaultFiles path)
    (hfindings : ∀ f ∈ findings, isDotenvFile f.path = true → f.path ∈ I) :
    Fx.Related m (TwinDisks I path none) (adoptFindings path unlock findings pre force)
      (adoptFindings path unlock findings pre force) fun _ _ => True := by
  have hfiles : ∀ file ∈ findingsByFile (envFindings [] findings), file.1 ∈ I := by
    intro file hfile
    obtain ⟨hdotenv, f, hf, hpath⟩ := adoptable_of_mem hfile
    rw [← hpath] at hdotenv ⊢
    exact hfindings f hf hdotenv
  unfold adoptFindings
  dsimp only
  split
  · exact .pure trivial
  refine (openVault_related hI unlock).bind ?_
  rintro s t ⟨h, hplace⟩
  refine refreshed_related h hplace fun file file' s t h => ?_
  have hstart : AdoptTwins path (some (file, file')) ⟨s, [], false, [], [], [], []⟩
      ⟨t, [], false, [], [], [], []⟩ :=
    ⟨t, rfl, h.mono fun _ ⟨_, hnil⟩ => nomatch hnil⟩
  refine (changing (adoptFiles_related hstart hfiles)).bind ?_
  rintro ⟨state, writes⟩ ⟨_, writes'⟩
  refine Fx.Pairs.fact ?_
  rintro ⟨⟨store, heq, hstore⟩, hwrites⟩
  obtain rfl : writes' = writes := hwrites
  obtain rfl := heq
  have hexpected : ∀ p ∈ state.storedPairs, p.1 ∈ keysOf state.storedPairs :=
    fun p hp => ⟨p.2, hp⟩
  -- the sources are rewritten only once the vault has what they held
  refine (save_pairs hI hstore).bind fun s t => (verifyPersisted_pairs hexpected).bind fun _ _ => ?_
  exact following (A := fun _ _ => True) (rewriteFiles_related.bind fun _ _ _ => .pure trivial)

/-- `scan --adopt` writes the marker when it is done. -/
theorem cmdScanAdopt_related {unlock : Unlock} {findings : List Finding} {pre : Option Str}
    {force : Bool} {marker : Path} (hI : ∀ q ∈ I, q ∉ vaultFiles path)
    (hfindings : ∀ f ∈ findings, isDotenvFile f.path = true → f.path ∈ I) :
    Fx.Related m (TwinDisks I path none) (cmdScanAdopt path unlock findings pre force marker)
      (cmdScanAdopt path unlock findings pre force marker) fun _ _ => True := by
  refine (adoptFindings_related hI hfindings).bind fun _ _ _ => ?_
  refine Fx.Related.bind (A := fun _ _ => True) ?_ fun _ _ _ => .pure trivial
  cases pre with
  | none => exact .pure trivial
  | some p => exact .write twinFile_lax (.same _)

end Reading

end

end HearthVault
