/-
HearthVault.Cli.BodyInvariants — what every body in the vault file satisfies,
whatever commands run on it.

A `BodyInvariant` is a property of bodies that every body operation keeps.
`Command.run_keeps` lifts it to the vault file: if the file holds such a body
before a command, or a v1 file that converts to one, then it holds such a
body after it, at any fault.

The proof carries two things along each program: the file satisfies
`HoldsBody`, and the store at hand is a `GoodStore`. What is read from the
file makes a good store (`readThen_keeps`), a body operation keeps it good
(`GoodStore.onBody`), and a good store may be saved (`save_keeps`). A file
that a fault has torn holds no body at all (`holdsBody_loose`), which is why
no case of a crash has to be looked at again. There is one lemma for each
program, in the order they call each other; the loops are inductions on what
they loop over.
-/
import HearthVault.Cli.Adopt
import HearthVault.Store.SealingTheorems

namespace HearthVault

open Files Symbolic Calendar

/-- A property of bodies that the body operations keep. -/
structure BodyInvariant (I : VaultBody → Prop) : Prop where
  empty : I ∅
  set : ∀ {body body' : VaultBody} {now : DateTime} {key value : Str} {tier : UInt8},
    I body → setEntry now key value tier body = .ok body' → I body'
  setRotation : ∀ {body body' : VaultBody} {now : DateTime} {key : Str} {days : Option UInt32},
    I body → setRotation now key days body = .ok body' → I body'
  setExpiry : ∀ {body body' : VaultBody} {key : Str} {due : Option Str},
    I body → setExpiry key due body = .ok body' → I body'
  rename : ∀ {body body' : VaultBody} {source target : Str},
    I body → renameEntry source target body = .ok body' → I body'
  retier : ∀ {body body' : VaultBody} {now : DateTime} {key : Str} {tier : UInt8},
    I body → retierEntry now key tier body = .ok body' → I body'
  delete : ∀ {body : VaultBody} (key : Str), I body → I (deleteEntry key body).1

/-- The body that is sealed in a file. -/
def sealedBody (contents : Option Contents) : Option VaultBody :=
  match contents with
  | some (.v2 file) => match file.vault with
    | .encoded ⟨_, _, _, .body body⟩ => some body
    | _ => none
  | _ => none

/-- The sealed body satisfies `I`, or will when one of the passphrases
migrates the file. -/
def HoldsBody (I : VaultBody → Prop) (passphrases : Set Str) (contents : Option Contents) : Prop :=
  (∀ body, sealedBody contents = some body → I body) ∧
    ∀ text file passphrase body, contents = some (.v1 text file) → passphrase ∈ passphrases →
      convertV1 file passphrase = .ok body → I body

/-- A body that decrypts is the body that is sealed there: there is no other key
and no other associated data under which it would open. -/
theorem sealedBody_of_decryptBody {file : VaultFileV2} {key : Key} {body : VaultBody}
    (h : decryptBody key file.vault = .ok body) : sealedBody (some (.v2 file)) = some body := by
  -- text that is not base64 does not decrypt
  cases hv : file.vault with
  | malformed text => simp [decryptBody, hv, B64.decode, bail] at h
  | encoded c =>
    obtain ⟨k, nonce, aad, plaintext⟩ := c
    simp only [decryptBody, hv, B64.decode_encoded, result_ok_bind, Sealed.decrypt] at h
    split at h
    · simp [bail] at h
    · rename_i body' heq
      cases h
      split at heq
      · cases heq
        simp [sealedBody, hv]
      · cases heq
    · simp [bail] at h

namespace VaultStore

/-- A store that was made from a file holds the body sealed there. -/
theorem ofFile_eq_ok {path : Path} {contents : Contents} {file : VaultFileV2} {key : Key}
    {store : VaultStore} (h : ofFile path contents file key = .ok store) :
    store.path = path ∧ sealedBody (some (.v2 file)) = some store.body := by
  simp only [ofFile, result_bind_eq_ok] at h
  obtain ⟨body, hbody, h⟩ := h
  cases h
  exact ⟨rfl, sealedBody_of_decryptBody hbody⟩

/-- Opening with a passphrase gives the sealed body. -/
theorem loadV2Contents_eq_ok {path : Path} {passphrase : Str} {contents : Contents}
    {store : VaultStore} (h : loadV2Contents path passphrase contents = .ok store) :
    store.path = path ∧ sealedBody (some contents) = some store.body := by
  simp only [loadV2Contents, result_bind_eq_ok] at h
  obtain ⟨file, hfile, _, _, _, _, h⟩ := h
  cases parseV2_eq_ok hfile
  exact ofFile_eq_ok h

/-- Opening with a wrap key gives the sealed body. -/
theorem openWrapKeyContents_eq_ok {path : Path} {key : Key} {contents : Contents}
    {store : VaultStore} (h : openWrapKeyContents path key contents = .ok store) :
    store.path = path ∧ sealedBody (some contents) = some store.body := by
  simp only [openWrapKeyContents, result_bind_eq_ok] at h
  obtain ⟨file, hfile, _, _, h⟩ := h
  cases parseV2_eq_ok hfile
  exact ofFile_eq_ok h

/-- Reading the file again gives the body that is sealed there now. -/
theorem refresh_eq_ok {store store' : VaultStore} {contents : Contents}
    (h : store.refresh contents = .ok store') :
    store'.path = store.path ∧ sealedBody (some contents) = some store'.body := by
  simp only [refresh, result_bind_eq_ok, mapErr_eq_ok] at h
  obtain ⟨file, hfile, body, hbody, h⟩ := h
  cases parseV2_eq_ok hfile
  cases h
  exact ⟨rfl, sealedBody_of_decryptBody hbody⟩

/-- A change of the body changes nothing else of the store. -/
theorem onBody_eq_ok {store store' : VaultStore} {f : VaultBody → Result VaultBody}
    (h : store.onBody f = .ok store') :
    store'.path = store.path ∧ f store.body = .ok store'.body := by
  simp only [onBody, result_bind_eq_ok] at h
  obtain ⟨body, hbody, h⟩ := h
  cases h
  exact ⟨rfl, hbody⟩

/-- What a store writes is its body, sealed. -/
@[simp] theorem sealedBody_toFile (store : VaultStore) (nonce : Nat) :
    sealedBody (some (.v2 (store.toFile nonce))) = some store.body := rfl

end VaultStore

section

variable {I : VaultBody → Prop} {passphrases : Set Str} {path : Path} {m : Machine}

/-- A file that is absent or torn seals no body. -/
theorem holdsBody_loose : Fx.Loose (HoldsBody I passphrases) :=
  ⟨⟨nofun, nofun⟩, fun _ => ⟨nofun, nofun⟩⟩

/-- A file that a good store writes satisfies the invariant. -/
theorem holdsBody_toFile {store : VaultStore} (h : I store.body) (nonce : Nat) :
    HoldsBody I passphrases (some (.v2 (store.toFile nonce))) := by
  refine ⟨fun body hb => ?_, nofun⟩
  rw [VaultStore.sealedBody_toFile] at hb
  cases hb
  exact h

/-! ## The programs of the store -/

/-- A store of the vault path with a body that satisfies `I`. -/
def GoodStore (I : VaultBody → Prop) (path : Path) (store : VaultStore) : Prop :=
  store.path = path ∧ I store.body

/-- What is read is the file, or an error. -/
theorem readToString_keeps {K : Option Contents → Prop} :
    Fx.Keeps m path K (readToString path) fun c => K (some c) := by
  refine Fx.Keeps.read.bind fun c hc => ?_
  cases c <;> first | exact Fx.Keeps.pure hc | exact Fx.Keeps.ofResult fun _ h => by cases h

theorem acquire_keeps {K : Option Contents → Prop} {q : Path} :
    Fx.Keeps m path K (acquire q) fun _ => True :=
  Fx.Keeps.check.bind fun _ _ => Fx.Keeps.check

/-- The lock is a file of its own. -/
theorem underLock_keeps {α : Type} {K : Option Contents → Prop} {A : α → Prop} {held : Bool}
    {q : Path} {x : Prog α} (hx : Fx.Keeps m path K x A) :
    Fx.Keeps m path K (underLock held q x) A := by
  cases held with
  | true => exact hx
  | false => exact acquire_keeps.bind fun _ _ => hx.releasing

theorem restrictToOwner_keeps {K : Option Contents → Prop} {q : Path} :
    Fx.Keeps m path K (restrictToOwner q) fun _ => True :=
  Fx.Keeps.check.bind fun _ _ => Fx.Keeps.check

/-- Reading and computing on what was read. -/
theorem readThen_keeps {K : Option Contents → Prop} {α : Type} {A : α → Prop}
    {f : Contents → Result α} (hf : ∀ c a, K (some c) → f c = .ok a → A a) :
    Fx.Keeps m path K (do let c ← readToString path; Fx.ofResult (f c)) A :=
  readToString_keeps.bind fun c hc => Fx.Keeps.ofResult fun a ha => hf c a hc ha

/-- A store that opens is good, since its body was in the file. -/
theorem VaultStore.loadV2_keeps (passphrase : Str) :
    Fx.Keeps m path (HoldsBody I passphrases) (loadV2 path passphrase) (GoodStore I path) := by
  refine readThen_keeps fun c store hc hload => ?_
  obtain ⟨hpath, hbody⟩ := loadV2Contents_eq_ok hload
  exact ⟨hpath, hc.1 _ hbody⟩

theorem VaultStore.openAtWithWrapKey_keeps (key : Key) :
    Fx.Keeps m path (HoldsBody I passphrases) (openAtWithWrapKey path key) (GoodStore I path) := by
  refine readThen_keeps fun c store hc hload => ?_
  obtain ⟨hpath, hbody⟩ := openWrapKeyContents_eq_ok hload
  exact ⟨hpath, hc.1 _ hbody⟩

/-- A save replaces the file by one whose body is that of the store, or leaves
it. -/
theorem VaultStore.save_keeps {store : VaultStore} (h : GoodStore I path store) :
    Fx.Keeps m path (HoldsBody I passphrases) store.save (GoodStore I path) := by
  refine underLock_keeps (Fx.Keeps.bind (Fx.Keeps.when fun _ => ?_) fun _ _ => ?_)
  · exact Fx.Keeps.check.attempt.bind fun _ _ => Fx.Keeps.ensure.done
  -- the file that is written is sealed from the good store, the temporary one
  -- as well
  refine Fx.Keeps.check.bind fun _ _ => Fx.Keeps.random.bind fun nonce _ => ?_
  refine (writePrivate_keeps holdsBody_loose _ (holdsBody_toFile h.2 nonce)).mapErr.bind
    fun _ _ => ?_
  exact Fx.Keeps.pure h

/-- Whatever the store held before, it is good once the file was read again. -/
theorem VaultStore.lockAndRefresh_keeps {store : VaultStore} (h : store.path = path) :
    Fx.Keeps m path (HoldsBody I passphrases) store.lockAndRefresh (GoodStore I path) := by
  subst h
  refine (Fx.Keeps.when fun _ => acquire_keeps).bind fun _ _ => ?_
  refine readToString_keeps.mapErr.bind fun c hc => Fx.Keeps.ofResult fun store' h' => ?_
  obtain ⟨hpath, hbody⟩ := refresh_eq_ok h'
  exact ⟨hpath, hc.1 _ hbody⟩

/-- Verifying only reads. -/
theorem VaultStore.verifyPersisted_keeps {K : Option Contents → Prop} {store : VaultStore}
    {expected : List (Str × Str)} :
    Fx.Keeps m path K (store.verifyPersisted expected) fun _ => True :=
  Fx.Keeps.bind (A := fun _ => True)
    (Fx.Keeps.mapErr (Fx.Keeps.bind Fx.Keeps.check fun c _ => by
      cases c <;> first | exact Fx.Keeps.pure trivial | exact Fx.Keeps.ofResult fun _ _ => trivial))
    fun _ _ => Fx.Keeps.ofResult fun _ _ => trivial

section Open

variable (hempty : I ∅)

include hempty

/-- A new vault is empty, so an invariant of the empty body is all that it
needs. -/
theorem VaultStore.createNew_keeps (passphrase : Str) :
    Fx.Keeps m path (HoldsBody I passphrases) (createNew path passphrase) (GoodStore I path) := by
  refine Fx.Keeps.random.bind fun key _ => Fx.Keeps.random.bind fun salt _ =>
    Fx.Keeps.random.bind fun nonce _ => ?_
  refine Fx.Keeps.bind (A := GoodStore I path) (Fx.Keeps.ofResult fun store h => ?_)
    fun store h => (save_keeps h).bind fun store h => Fx.Keeps.pure h
  simp only [fresh, result_bind_eq_ok] at h
  obtain ⟨_, _, h⟩ := h
  cases h
  exact ⟨rfl, hempty⟩

omit hempty in
/-- A migration writes the body that the old file converts to; the second half
of `HoldsBody` is for this. -/
theorem migrateV1ToV2_keeps {passphrase : Str} (hp : passphrase ∈ passphrases) :
    Fx.Keeps m path (HoldsBody I passphrases) (migrateV1ToV2 path passphrase) fun _ => True := by
  -- first the body that the old entries convert to, then the file that is
  -- sealed from it
  refine Fx.Keeps.bind (A := I) ?_ fun body hbody => ?_
  · refine readToString_keeps.bind fun c hc => ?_
    refine Fx.Keeps.bind (A := fun file => ∃ text, c = .v1 text file)
      (Fx.Keeps.ofResult fun file h => ?_) fun file ⟨text, htext⟩ => ?_
    · cases c <;> simp [parseV1, bail] at h
      exact ⟨_, by rw [h]⟩
    refine Fx.Keeps.bind (A := I) (Fx.Keeps.ofResult fun body h => ?_) fun body hbody => ?_
    · exact hc.2 text file passphrase body (by rw [htext]) hp h
    refine (Fx.Keeps.write holdsBody_loose hc).bind fun _ _ => ?_
    exact restrictToOwner_keeps.mapErr.bind fun _ _ => Fx.Keeps.pure hbody
  · refine Fx.Keeps.random.bind fun key _ => Fx.Keeps.random.bind fun salt _ =>
      Fx.Keeps.random.bind fun nonce _ => Fx.Keeps.random.bind fun nonce' _ => ?_
    refine Fx.Keeps.bind (A := fun file => HoldsBody I passphrases (some (.v2 file)))
      (Fx.Keeps.ofResult fun file h => ?_) fun file hfile => ?_
    · simp only [migratedFile, result_bind_eq_ok] at h
      obtain ⟨_, _, h⟩ := h
      cases h
      refine ⟨fun b hb => ?_, nofun⟩
      cases hb
      exact hbody
    · exact (Fx.Keeps.write holdsBody_loose hfile).bind fun _ _ => restrictToOwner_keeps.mapErr

/-- Opening with a passphrase may migrate the file or create it. -/
theorem VaultStore.openAtWithPassphrase_keeps {passphrase : Str}
    (hp : passphrase ∈ passphrases) :
    Fx.Keeps m path (HoldsBody I passphrases) (openAtWithPassphrase path passphrase)
      (GoodStore I path) := by
  refine Fx.Keeps.pathExists.bind fun existed _ => ?_
  cases existed with
  | true =>
    refine readToString_keeps.bind fun c _ => ?_
    refine (Fx.Keeps.ofResult fun _ _ => trivial).bind fun versioned _ => ?_
    -- under the lock the file is looked at once more, since another process
    -- may have migrated it
    have hmigrate : Fx.Keeps m path (HoldsBody I passphrases) (do
        let again ← readToString path
        let versioned ← Fx.ofResult (hasVersion again)
        Fx.when (versioned = false) (migrateV1ToV2 path passphrase)) fun _ => True :=
      readToString_keeps.bind fun c _ => (Fx.Keeps.ofResult fun _ _ => trivial).bind
        fun versioned _ => Fx.Keeps.when fun _ => migrateV1ToV2_keeps hp
    exact (Fx.Keeps.when fun _ => underLock_keeps hmigrate).bind fun _ _ => loadV2_keeps passphrase
  | false =>
    refine acquire_keeps.bind fun _ _ => Fx.Keeps.pathExists.bind fun existed _ => ?_
    cases existed with
    | true => exact Fx.Keeps.unlock.bind fun _ _ => loadV2_keeps passphrase
    | false => exact (createNew_keeps hempty passphrase).releasing

end Open

/-! ## The commands -/

/-- The passphrases a command may open the vault with. -/
def unlockPassphrases (unlock : Unlock) : Set Str :=
  {p | p = unlock.passphrase ∨ unlock.unsealed = some p}

/-- A way to open that fails leaves a file for the next one. -/
theorem openOr_keeps {K : Option Contents → Prop} {A : VaultStore → Prop}
    {attempt? : Option (Prog VaultStore)} {next : Prog VaultStore}
    (hattempt : ∀ x, attempt? = some x → Fx.Keeps m path K x A) (hnext : Fx.Keeps m path K next A) :
    Fx.Keeps m path K (openOr attempt? next) A := by
  cases attempt? with
  | none => exact hnext
  | some x =>
    refine (hattempt x rfl).attempt.bind fun r hr => ?_
    cases r with
    | error e => exact hnext
    | ok store => exact Fx.Keeps.pure (hr store rfl)

/-- Opening a vault by any of the ways gives a good store. -/
theorem openVault_keeps (hempty : I ∅) (unlock : Unlock) :
    Fx.Keeps m path (HoldsBody I (unlockPassphrases unlock)) (openVault path unlock)
      (GoodStore I path) := by
  refine openOr_keeps (fun x hx => ?_) (openOr_keeps (fun x hx => ?_) ?_)
  · obtain ⟨p, hp, rfl⟩ := Option.map_eq_some_iff.mp hx
    exact VaultStore.openAtWithPassphrase_keeps hempty (.inr hp)
  · obtain ⟨key, _, rfl⟩ := Option.map_eq_some_iff.mp hx
    exact VaultStore.openAtWithWrapKey_keeps key
  · exact VaultStore.openAtWithPassphrase_keeps hempty (.inl rfl)

section Commands

variable (hI : BodyInvariant I)

include hI

variable {K : Option Contents → Prop} {store : VaultStore}

omit hI in
/-- A body operation, done on a good store. -/
theorem GoodStore.onBody {f : VaultBody → Result VaultBody}
    (hf : ∀ body body', I body → f body = .ok body' → I body') (h : GoodStore I path store) :
    Fx.Keeps m path K (Fx.ofResult (store.onBody f)) (GoodStore I path) := by
  refine Fx.Keeps.ofResult fun store' h' => ?_
  obtain ⟨hpath, hbody⟩ := VaultStore.onBody_eq_ok h'
  exact ⟨hpath.trans h.1, hf _ _ h.2 hbody⟩

theorem VaultStore.set_keeps (h : GoodStore I path store) {key value : Str} {tier : UInt8} :
    Fx.Keeps m path K (store.set key value tier) (GoodStore I path) :=
  Fx.Keeps.now.bind fun _ _ => h.onBody fun _ _ => hI.set

theorem applyRotation_keeps (h : GoodStore I path store) {days : Option UInt32} {key : Str} :
    Fx.Keeps m path K (applyRotation days key store) (GoodStore I path) := by
  cases days with
  | none => exact Fx.Keeps.pure h
  | some days => exact Fx.Keeps.now.bind fun _ _ => h.onBody fun _ _ => hI.setRotation

theorem applyExpiry_keeps (h : GoodStore I path store) {due : Option Str} {key : Str} :
    Fx.Keeps m path K (applyExpiry due key store) (GoodStore I path) := by
  cases due with
  | none => exact Fx.Keeps.pure h
  | some due => exact h.onBody fun _ _ => hI.setExpiry

/-- On the pairs: each is set, and gets its rotation and its expiry. -/
theorem setAll_keeps {tier : Option UInt8} {days : Option UInt32} {due : Option Str}
    {pairs : List (Str × Str)} (h : GoodStore I path store) :
    Fx.Keeps m path K (setAll tier days due pairs store) (GoodStore I path) := by
  induction pairs generalizing store with
  | nil => exact Fx.Keeps.pure h
  | cons pair rest ih =>
    exact (VaultStore.set_keeps hI h).bind fun _ h => (applyRotation_keeps hI h).bind fun _ h =>
      (applyExpiry_keeps hI h).bind fun _ h => ih h

/-- On the pairs: each is stored or skipped. -/
theorem importPairs_keeps {pre : Str} {tier : UInt8} {force : Bool} {pairs : List (Str × Str)}
    (h : GoodStore I path store) :
    Fx.Keeps m path K (importPairs pre tier force pairs store) fun r => GoodStore I path r.1 := by
  induction pairs generalizing store with
  | nil => exact Fx.Keeps.pure h
  | cons pair rest ih =>
    obtain ⟨name, value⟩ := pair
    unfold importPairs
    dsimp only
    split
    · exact ih h
    · exact (VaultStore.set_keeps hI h).bind fun _ h => (ih h).bind fun _ h => Fx.Keeps.pure h

/-- On the entries of the bundle: each is stored or skipped. -/
theorem receiveAll_keeps {pre : Option Str} {force : Bool} {entries : List SharedEntry}
    (h : GoodStore I path store) :
    Fx.Keeps m path K (receiveAll pre force entries store) fun r => GoodStore I path r.1 := by
  induction entries generalizing store with
  | nil => exact Fx.Keeps.pure h
  | cons entry rest ih =>
    unfold receiveAll
    dsimp only
    split
    · exact ih h
    · exact (VaultStore.set_keeps hI h).bind fun _ h => (ih h).bind fun _ h => Fx.Keeps.pure h

omit hI in
/-- Save, and read back what was stored. -/
theorem saveAndVerify_keeps {passphrases : Set Str} {expected : List (Str × Str)}
    (h : GoodStore I path store) :
    Fx.Keeps m path (HoldsBody I passphrases)
      (do let store ← store.save; store.verifyPersisted expected) fun _ => True :=
  (VaultStore.save_keeps h).bind fun _ _ => VaultStore.verifyPersisted_keeps

variable [JsonText]

omit hI in
theorem readText_keeps {q : Path} : Fx.Keeps m path K (readText q) fun _ => True :=
  Fx.Keeps.check.bind fun _ _ => Fx.Keeps.ofResult fun _ _ => trivial

omit hI in
/-- Wherever the deletion is interrupted, the file is torn or absent. -/
theorem secureDeleteFile_keeps (hK : Fx.Loose K) {q : Path} :
    Fx.Keeps m path K (secureDeleteFile q) fun _ => True :=
  Fx.Keeps.check.bind fun _ _ => Fx.Keeps.check.bind fun _ _ =>
    (Fx.Keeps.fill hK (hK.torn _)).bind fun _ _ => Fx.Keeps.check.bind fun _ _ =>
      Fx.Keeps.remove hK

omit hI in
/-- Best effort: an error is no reason to stop. -/
theorem addToGitignore_keeps (hK : Fx.Loose K) {entry : Str} :
    Fx.Keeps m path K (addToGitignore entry) fun _ => True := by
  refine Fx.Keeps.pathExists.bind fun existed _ => ?_
  cases existed with
  | false => exact Fx.Keeps.pure trivial
  | true =>
    refine readText_keeps.attempt.bind fun r _ => ?_
    cases r with
    | error e => exact Fx.Keeps.pure trivial
    | ok contents =>
      dsimp only
      split
      · exact Fx.Keeps.pure trivial
      · exact (Fx.Keeps.write hK (hK.torn _)).attempt.bind fun _ _ => Fx.Keeps.pure trivial

omit hI [JsonText] in
/-- A snapshot is a copy of the vault file, so it satisfies what the vault file
does. -/
theorem writeBackup_keeps (hK : Fx.Loose K) :
    Fx.Keeps m path K (writeBackup path) fun _ => True := by
  refine Fx.Keeps.pathExists.bind fun _ _ => Fx.Keeps.ensure.bind fun _ _ => ?_
  refine Fx.Keeps.now.bind fun now _ => Fx.Keeps.pathExists.bind fun _ _ => ?_
  refine Fx.Keeps.ensure.bind fun _ _ => Fx.Keeps.read.bind fun c hc => ?_
  exact Fx.Keeps.check.bind fun _ _ => (writePrivate_keeps hK _ hc).mapErr.bind fun _ _ =>
    Fx.Keeps.pure trivial

/-! ### The commands themselves -/

omit [JsonText] in
theorem cmdSet_keeps [Chrono] {unlock : Unlock} {keys : List (Str × Str)} {tier : Option UInt8}
    {days : Option UInt32} {expires : Option Str} :
    Fx.Keeps m path (HoldsBody I (unlockPassphrases unlock))
      (cmdSet path unlock keys tier days expires) fun _ => True := by
  refine Fx.Keeps.ensure.bind fun _ _ => ?_
  refine Fx.Keeps.bind (A := fun _ => True) ?_ fun expiry _ => ?_
  · cases expires with
    | none => exact Fx.Keeps.pure trivial
    | some input =>
      exact Fx.Keeps.now.bind fun _ _ => (Fx.Keeps.ofResult fun _ _ => trivial).bind fun _ _ =>
        Fx.Keeps.pure trivial
  refine (openVault_keeps hI.empty unlock).bind fun store h => Fx.Keeps.when fun _ => ?_
  exact (VaultStore.lockAndRefresh_keeps h.1).bind fun _ h => (setAll_keeps hI h).bind fun _ h =>
    saveAndVerify_keeps h

theorem cmdImport_keeps {unlock : Unlock} {file : FileArg} {key : Str} {tier : UInt8} :
    Fx.Keeps m path (HoldsBody I (unlockPassphrases unlock))
      (cmdImport path unlock file key tier) fun _ => True := by
  refine Fx.Keeps.pathExists.bind fun _ _ => Fx.Keeps.ensure.bind fun _ _ => ?_
  refine readText_keeps.bind fun _ _ => Fx.Keeps.ensure.bind fun _ _ => ?_
  refine (openVault_keeps hI.empty unlock).bind fun _ h => ?_
  refine (VaultStore.lockAndRefresh_keeps h.1).bind fun _ h => ?_
  refine (VaultStore.set_keeps hI h).bind fun _ h => (VaultStore.save_keeps h).bind fun _ _ => ?_
  exact VaultStore.verifyPersisted_keeps.mapErr.bind fun _ _ =>
    secureDeleteFile_keeps holdsBody_loose

theorem cmdImportEnv_keeps {unlock : Unlock} {file : FileArg} {pre : Option Str} {tier : UInt8}
    {keep force : Bool} :
    Fx.Keeps m path (HoldsBody I (unlockPassphrases unlock))
      (cmdImportEnv path unlock file pre tier keep force) fun _ => True := by
  refine Fx.Keeps.pathExists.bind fun _ _ => Fx.Keeps.ensure.bind fun _ _ => ?_
  refine readText_keeps.bind fun _ _ => Fx.Keeps.ensure.bind fun _ _ => ?_
  refine (openVault_keeps hI.empty unlock).bind fun _ h => ?_
  refine (VaultStore.lockAndRefresh_keeps h.1).bind fun _ h => ?_
  refine (importPairs_keeps hI h).bind fun _ h => (VaultStore.save_keeps h).bind fun _ _ => ?_
  refine VaultStore.verifyPersisted_keeps.bind fun _ _ => ?_
  exact (addToGitignore_keeps holdsBody_loose).bind fun _ _ =>
    Fx.Keeps.when fun _ => secureDeleteFile_keeps holdsBody_loose

omit [JsonText] in
theorem cmdReceive_keeps {unlock : Unlock} {file : Path} {dryRun : Bool} {pre : Option Str}
    {force : Bool} :
    Fx.Keeps m path (HoldsBody I (unlockPassphrases unlock))
      (cmdReceive path unlock file dryRun pre force) fun _ => True := by
  refine Fx.Keeps.check.mapErr.bind fun _ _ => ?_
  refine (Fx.Keeps.ofResult fun _ _ => trivial).bind fun _ _ => ?_
  refine (openVault_keeps hI.empty unlock).bind fun _ h => ?_
  refine (Fx.Keeps.ofResult fun _ _ => trivial).bind fun _ _ => Fx.Keeps.when fun _ => ?_
  refine (VaultStore.lockAndRefresh_keeps h.1).bind fun _ h => ?_
  refine (receiveAll_keeps hI h).bind fun _ h => Fx.Keeps.when fun _ => ?_
  exact saveAndVerify_keeps h

omit [JsonText] in
/-- A command that opens, changes the body once and saves. -/
theorem changeBody_keeps {unlock : Unlock} {change : VaultStore → Prog VaultStore}
    (hchange : ∀ store, GoodStore I path store →
      Fx.Keeps m path (HoldsBody I (unlockPassphrases unlock)) (change store) (GoodStore I path)) :
    Fx.Keeps m path (HoldsBody I (unlockPassphrases unlock))
      (do
        let store ← openVault path unlock
        let store ← store.lockAndRefresh
        let store ← change store
        let _ ← store.save) fun _ => True :=
  (openVault_keeps hI.empty unlock).bind fun _ h =>
    (VaultStore.lockAndRefresh_keeps h.1).bind fun _ h =>
    (hchange _ h).bind fun _ h => (VaultStore.save_keeps h).bind fun _ _ => Fx.Keeps.pure trivial

omit [JsonText] in
theorem cmdRename_keeps {unlock : Unlock} {source target : Str} :
    Fx.Keeps m path (HoldsBody I (unlockPassphrases unlock))
      (cmdRename path unlock source target) fun _ => True :=
  changeBody_keeps hI fun _ h => h.onBody fun _ _ => hI.rename

omit [JsonText] in
theorem cmdRetier_keeps {unlock : Unlock} {key : Str} {tier : UInt8} :
    Fx.Keeps m path (HoldsBody I (unlockPassphrases unlock))
      (cmdRetier path unlock key tier) fun _ => True := by
  refine (openVault_keeps hI.empty unlock).bind fun _ h => ?_
  refine (VaultStore.lockAndRefresh_keeps h.1).bind fun _ h => ?_
  refine (Fx.Keeps.ofResult fun _ _ => trivial).bind fun _ _ => Fx.Keeps.now.bind fun _ _ => ?_
  refine (h.onBody fun _ _ => hI.retier).bind fun _ h => ?_
  exact (VaultStore.save_keeps h).bind fun _ _ => Fx.Keeps.pure trivial

omit [JsonText] in
/-- With or without a snapshot, which may also fail. -/
theorem cmdDelete_keeps {unlock : Unlock} {key : Str} {noBackup : Bool} :
    Fx.Keeps m path (HoldsBody I (unlockPassphrases unlock))
      (cmdDelete path unlock key noBackup) fun _ => True := by
  refine (openVault_keeps hI.empty unlock).bind fun _ h => ?_
  refine (VaultStore.lockAndRefresh_keeps h.1).bind fun store h => ?_
  refine Fx.Keeps.ensure.bind fun _ _ => (Fx.Keeps.when fun _ => ?_).bind fun _ _ => ?_
  · exact (writeBackup_keeps holdsBody_loose).attempt.bind fun _ _ => Fx.Keeps.pure trivial
  · have hdeleted : GoodStore I path { store with body := (deleteEntry key store.body).1 } :=
      ⟨h.1, hI.delete key h.2⟩
    exact (VaultStore.save_keeps hdeleted).bind fun _ _ => Fx.Keeps.pure trivial

omit [JsonText] in
/-- On the findings of a file: each is reported, skipped or stored. -/
theorem adoptInFile_keeps {pre : Str} {force : Bool} {findings : List Finding}
    {state : AdoptState} (h : GoodStore I path state.store) :
    Fx.Keeps m path K (adoptInFile pre force findings state)
      fun state => GoodStore I path state.store := by
  induction findings generalizing state with
  | nil => exact Fx.Keeps.pure h
  | cons f rest ih =>
    refine Fx.Keeps.bind (A := fun state => GoodStore I path state.store) ?_ fun state h => ih h
    unfold adoptFinding
    dsimp only
    split
    · exact Fx.Keeps.pure h
    · split
      · exact Fx.Keeps.pure h
      · split
        · exact Fx.Keeps.pure h
        · split
          · exact Fx.Keeps.pure h
          · exact (VaultStore.set_keeps hI h).bind fun _ h => Fx.Keeps.pure h

/-- On the files, of which the unreadable ones are passed over. -/
theorem adoptFiles_keeps {pre : Str} {force : Bool} {files : List (Path × List Finding)}
    {state : AdoptState} (h : GoodStore I path state.store) :
    Fx.Keeps m path K (adoptFiles pre force files state)
      fun r => GoodStore I path r.1.store := by
  induction files generalizing state with
  | nil => exact Fx.Keeps.pure h
  | cons file rest ih =>
    obtain ⟨q, findings⟩ := file
    refine readText_keeps.attempt.bind fun r _ => ?_
    cases r with
    | error e => exact ih h
    | ok content =>
      have hstart : GoodStore I path
          ({ state with lines := Str.lines content, changed := false } : AdoptState).store := h
      exact (adoptInFile_keeps hI hstart).bind fun _ h => (ih h).bind fun _ h => Fx.Keeps.pure h

omit hI [JsonText] in
/-- A file that is rewritten may be the vault file: then it is no vault any
more. -/
theorem rewriteFiles_keeps (hK : Fx.Loose K) {files : List (Path × Str)} :
    Fx.Keeps m path K (rewriteFiles files) fun _ => True := by
  induction files with
  | nil => exact Fx.Keeps.pure trivial
  | cons file rest ih => exact (Fx.Keeps.write hK (hK.torn _)).bind fun _ _ => ih

/-- Adopting, and then the project marker. -/
theorem cmdScanAdopt_keeps {unlock : Unlock} {findings : List Finding} {pre : Option Str}
    {force : Bool} {marker : Path} :
    Fx.Keeps m path (HoldsBody I (unlockPassphrases unlock))
      (cmdScanAdopt path unlock findings pre force marker) fun _ => True := by
  refine Fx.Keeps.bind (A := fun _ => True) ?_ fun outcome _ => ?_
  · unfold adoptFindings
    dsimp only
    split
    · exact Fx.Keeps.pure trivial
    · refine (openVault_keeps hI.empty unlock).bind fun _ h => ?_
      refine (VaultStore.lockAndRefresh_keeps h.1).bind fun _ h => ?_
      refine (adoptFiles_keeps hI h).bind fun _ h => (VaultStore.save_keeps h).bind fun _ _ => ?_
      exact VaultStore.verifyPersisted_keeps.bind fun _ _ =>
        (rewriteFiles_keeps holdsBody_loose).bind fun _ _ => Fx.Keeps.pure trivial
  · refine Fx.Keeps.bind (A := fun _ => True) ?_ fun _ _ => Fx.Keeps.pure trivial
    cases pre with
    | none => exact Fx.Keeps.pure trivial
    | some p => exact Fx.Keeps.write holdsBody_loose (holdsBody_loose.torn _)

/-- Every command keeps every body invariant, at any fault. -/
theorem Command.run_keeps [Chrono] (unlock : Unlock) (command : Command) :
    Fx.Keeps m path (HoldsBody I (unlockPassphrases unlock)) (command.run path unlock)
      fun _ => True := by
  cases command with
  | set => exact cmdSet_keeps hI
  | «import» => exact cmdImport_keeps hI
  | importEnv => exact cmdImportEnv_keeps hI
  | rename => exact cmdRename_keeps hI
  | retier => exact cmdRetier_keeps hI
  | delete => exact cmdDelete_keeps hI
  | receive => exact cmdReceive_keeps hI
  | scanAdopt => exact (cmdScanAdopt_keeps hI).bind fun _ _ => Fx.Keeps.pure trivial

end Commands

end

end HearthVault
