/-
HearthVault.Cli.Opening — opening a vault when no file operation meets a
fault.

`Entries` says what a vault file holds, in either format, and `Unlock.Opens`
what the secrets at hand open it to. `openVault` answers a store with those
entries, which is `Current`: it is what the file holds now. When no secret
fits it answers an error and the file is as it was (`openVault_opens`).

Opening is a choice of three programs, each tried where the ones before have
failed (`openOr`). `Opening` says of one program what is wanted of all: a
current store with entries that the secret opens, or an error with the file
unchanged and no such entries. It holds of each way to open, and passes from
the two halves of `openOr` to the whole (`Opening.openOr`). The first sections
see to it that an error is one that the next way may follow, and no panic
(`Plain`).
-/
import HearthVault.Cli.BodyInvariants
import HearthVault.Store.MigrateTheorems
import HearthVault.Store.Outcomes
import HearthVault.Store.Runs

namespace HearthVault

open Files Symbolic

/-! ## What a file holds -/

/-- The entries of a vault file. A vault that is not there has none. -/
def Entries : Option Contents → VaultBody → Prop
  | none, body => body = ∅
  | some (.v1 _ file), body => ∃ passphrase, convertV1 file passphrase = .ok body
  | contents, body => sealedBody contents = some body

/-- The entries a passphrase opens a file to. -/
def PassphraseOpens (path : Path) (passphrase : Str) : Option Contents → VaultBody → Prop
  | none, body => body = ∅
  | some (.v1 _ file), body => convertV1 file passphrase = .ok body
  | some c, body => ∃ store, VaultStore.loadV2Contents path passphrase c = .ok store ∧
      store.body = body

/-- The entries that the secrets at hand open a file to. -/
def Unlock.Opens (unlock : Unlock) (path : Path) (contents : Option Contents)
    (body : VaultBody) : Prop :=
  (∃ p, unlock.unsealed = some p ∧ PassphraseOpens path p contents body) ∨
    (∃ key c store, unlock.agent = some key ∧ contents = some c ∧
      VaultStore.openWrapKeyContents path key c = .ok store ∧ store.body = body) ∨
    PassphraseOpens path unlock.passphrase contents body

/-- The v1 entries are what they are, whoever opens them. -/
theorem convertV1_unique {file : VaultFileV1} {p q : Str} {body body' : VaultBody}
    (h : convertV1 file p = .ok body) (h' : convertV1 file q = .ok body') : body = body' := by
  have hle : ∀ {p q : Str} {body body' : VaultBody}, convertV1 file p = .ok body →
      convertV1 file q = .ok body' → ∀ (name : Str) (entry : BodyEntry),
      body[name]? = some entry → body'[name]? = some entry := by
    intro p q body body' h h' name entry hentry
    obtain ⟨old, value, hold, ⟨salt, nonce, -, hc⟩, rfl⟩ :=
      ((convertV1_eq_ok h).entries name entry).mp hentry
    have hsome : body'[name]?.isSome = true := by rw [(convertV1_eq_ok h').complete, hold]; rfl
    obtain ⟨entry', hentry'⟩ := Option.isSome_iff_exists.mp hsome
    obtain ⟨old', value', hold', ⟨salt', nonce', -, hc'⟩, rfl⟩ :=
      ((convertV1_eq_ok h').entries name entry').mp hentry'
    rw [hold] at hold'
    cases hold'
    rw [hc] at hc'
    cases hc'
    exact hentry'
  refine Std.ExtTreeMap.ext_getElem? fun name => Option.ext fun entry => ?_
  exact ⟨hle h h' name entry, hle h' h name entry⟩

/-- A file has one list of entries: a v2 file has one body, and any two
passphrases of a v1 file convert it alike. -/
theorem Entries.unique {contents : Option Contents} {body body' : VaultBody}
    (h : Entries contents body) (h' : Entries contents body') : body = body' := by
  have hsealed : sealedBody contents = some body → sealedBody contents = some body' →
      body = body' := by
    intro h h'
    rw [h] at h'
    cases h'
    rfl
  cases contents with
  | none => exact Eq.trans h (Eq.symm h')
  | some c =>
    cases c with
    | v1 text file =>
      obtain ⟨p, hp⟩ := h
      obtain ⟨q, hq⟩ := h'
      exact convertV1_unique hp hq
    | _ => exact hsealed h h'

/-- In a v2 file the entries are the sealed body. -/
theorem entries_v2 {file : VaultFileV2} {body : VaultBody} :
    Entries (some (.v2 file)) body ↔ sealedBody (some (.v2 file)) = some body :=
  Iff.rfl

theorem entries_of_sealedBody {contents : Option Contents} {body : VaultBody}
    (h : sealedBody contents = some body) : Entries contents body := by
  cases contents with
  | none => cases h
  | some c =>
    cases c with
    | v1 text file => cases h
    | _ => exact h

/-- What a passphrase opens the file to are its entries. -/
theorem PassphraseOpens.entries {path : Path} {p : Str} {contents : Option Contents}
    {body : VaultBody} (h : PassphraseOpens path p contents body) : Entries contents body := by
  cases contents with
  | none => exact h
  | some c =>
    cases c with
    | v1 text file => exact ⟨p, h⟩
    | _ =>
      obtain ⟨store, hstore, rfl⟩ := h
      exact (VaultStore.loadV2Contents_eq_ok hstore).2

/-- So is what any of the secrets at hand opens it to. -/
theorem Unlock.Opens.entries {unlock : Unlock} {path : Path} {contents : Option Contents}
    {body : VaultBody} (h : unlock.Opens path contents body) : Entries contents body := by
  obtain ⟨p, -, hp⟩ | ⟨key, c, store, -, rfl, hstore, rfl⟩ | hp := h
  · exact hp.entries
  · have hsealed := (VaultStore.openWrapKeyContents_eq_ok hstore).2
    cases c with
    | v2 file => exact hsealed
    | _ => cases hsealed
  · exact hp.entries

/-! ## Errors that are no panics -/

section

variable {α β : Type}

def Plain (r : Result α) : Prop :=
  ∀ e, r = .error e → ∃ msg, e = .err msg

theorem Plain.ok (a : α) : Plain (.ok a) :=
  nofun

theorem Plain.bail (msg : String) : Plain (Files.bail msg : Result α) := by
  rintro _ ⟨⟩
  exact ⟨msg, rfl⟩

/-- Errors of either part are errors of the whole. -/
theorem Plain.bind {x : Result α} {f : α → Result β} (hx : Plain x)
    (hf : ∀ a, Plain (f a)) : Plain (x >>= f) := by
  intro e he
  cases x with
  | ok a => exact hf a e he
  | error e' => exact hx e (by simpa using he)

theorem Plain.mapErr {f : String → String} {x : Result α} (hx : Plain x) :
    Plain (Files.mapErr f x) := by
  intro e he
  rcases x with e' | a
  · obtain ⟨msg, rfl⟩ := hx e' rfl
    cases he
    exact ⟨_, rfl⟩
  · cases he

theorem B64.decode_plain (what : String) (b : B64 α) : Plain (b.decode what) := by
  cases b with
  | encoded a => exact .ok a
  | malformed text => exact .bail _

end

theorem KdfParams.validate_plain (kdf : KdfParams) : Plain kdf.validate := by
  unfold KdfParams.validate
  split
  · exact .bail _
  · split
    · exact .bail _
    · split
      · exact .bail _
      · exact .ok ()

theorem decodeSalt_plain (salt : B64 Octets) : Plain (decodeSalt salt) := by
  refine (B64.decode_plain _ _).bind fun bytes => ?_
  split
  · exact .bail _
  · exact .ok bytes

theorem parseV2_plain (c : Contents) : Plain (parseV2 c) := by
  unfold parseV2
  split
  · split
    · exact .bail _
    · exact .ok _
  · exact .bail _

/-- A body decrypts or is refused, whatever the bytes. -/
theorem decryptBody_plain (key : Key) (vault : B64 Ciphertext) : Plain (decryptBody key vault) := by
  refine (B64.decode_plain _ _).bind fun blob => ?_
  split
  · exact .bail _
  · exact .ok _
  · exact .bail _

theorem unwrapKey_plain (key : Key) (slot : WrapEntry) (aad : Str) (failure : String) :
    Plain (unwrapKey key slot aad failure) := by
  refine (B64.decode_plain _ _).bind fun blob => ?_
  split
  · exact .bail _
  · unfold toKey
    split
    · exact .ok _
    · exact .bail _

theorem deriveKeyArgon2id_plain (secret : Str) (salt : Octets) (kdf : KdfParams) :
    Plain (deriveKeyArgon2id secret salt kdf) :=
  kdf.validate_plain.bind fun _ => .ok _

namespace VaultStore

theorem ofFile_plain (path : Path) (c : Contents) (file : VaultFileV2) (key : Key) :
    Plain (ofFile path c file key) :=
  (decryptBody_plain key file.vault).bind fun _ => .ok _

theorem openWrapKeyContents_plain (path : Path) (key : Key) (c : Contents) :
    Plain (openWrapKeyContents path key c) :=
  (parseV2_plain c).bind fun _ => (unwrapKey_plain _ _ _ _).bind fun _ => ofFile_plain _ _ _ _

/-- Reading a v2 file neither panics nor is killed. -/
theorem loadV2Contents_plain (path : Path) (p : Str) (c : Contents) :
    Plain (loadV2Contents path p c) := by
  refine (parseV2_plain c).bind fun file => Plain.bind ?_ fun key =>
    (unwrapKey_plain _ _ _ _).bind fun _ => ofFile_plain _ _ _ _
  exact (decodeSalt_plain _).bind fun salt => (deriveKeyArgon2id_plain _ _ _).mapErr

end VaultStore

/-- Nor does the conversion of a v1 file. -/
theorem convertV1_plain (file : VaultFileV1) (p : Str) : Plain (convertV1 file p) := by
  refine Plain.bind ?_ fun key => ?_
  · exact (decodeSalt_plain _).bind fun salt =>
      (deriveKeyArgon2id_plain _ _ _).mapErr.bind fun _ => .ok _
  · generalize file.entries.toList = entries
    generalize (∅ : VaultBody) = body
    induction entries generalizing body with
    | nil => exact .ok _
    | cons head rest ih =>
      refine Plain.bind ?_ fun migrated => ih _
      refine (B64.decode_plain _ _).bind fun ciphertext => ?_
      split
      · exact .bail _
      · exact .ok _
      · exact .bail _

/-! ## Opening -/

/-- The store is what the vault file holds now. -/
structure VaultStore.Current (store : VaultStore) (path : Path) (w : Disk) : Prop where
  place : store.path = path
  file : ∃ file, w.fs path = some (.v2 file) ∧ parseV2 (.v2 file) = .ok file ∧
    decryptBody store.dataKey file.vault = .ok store.body ∧ store.loadedFp = some ⟨.v2 file⟩

/-- An opening has answered the store of entries that it may open, or an error
when there are none, and then the file is as it was. -/
def Opening (path : Path) (w : Disk) (opens : VaultBody → Prop) : Result VaultStore × Disk → Prop
  | (.ok store, w') => store.Current path w' ∧ opens store.body
  | (.error e, w') => (∃ msg, e = .err msg) ∧ w'.fs path = w.fs path ∧ ∀ body, ¬opens body

/-- A store made from the file at the path is current. -/
theorem VaultStore.ofFile_current {path : Path} {file : VaultFileV2} {key : Key}
    {store : VaultStore} {w : Disk} (hfs : w.fs path = some (.v2 file))
    (hversion : parseV2 (.v2 file) = .ok file)
    (h : ofFile path (.v2 file) file key = .ok store) : store.Current path w := by
  simp only [ofFile, result_bind_eq_ok] at h
  obtain ⟨body, hbody, h⟩ := h
  cases h
  exact ⟨rfl, file, hfs, hversion, hbody, rfl⟩

/-- After the passphrase. -/
theorem VaultStore.loadV2Contents_current {path : Path} {p : Str} {c : Contents}
    {store : VaultStore} {w : Disk} (hfs : w.fs path = some c)
    (h : loadV2Contents path p c = .ok store) : store.Current path w := by
  simp only [loadV2Contents, result_bind_eq_ok] at h
  obtain ⟨file, hfile, _, _, _, _, h⟩ := h
  cases parseV2_eq_ok hfile
  exact ofFile_current hfs hfile h

/-- After a wrap key. -/
theorem VaultStore.openWrapKeyContents_current {path : Path} {key : Key} {c : Contents}
    {store : VaultStore} {w : Disk} (hfs : w.fs path = some c)
    (h : openWrapKeyContents path key c = .ok store) : store.Current path w := by
  simp only [openWrapKeyContents, result_bind_eq_ok] at h
  obtain ⟨file, hfile, _, _, h⟩ := h
  cases parseV2_eq_ok hfile
  exact ofFile_current hfs hfile h

section

variable {m : Machine} {path : Path} {w : Disk}

/-- A program that answers what it computes from the file. -/
theorem Opening.of_answers {x : Prog VaultStore} {r : Result VaultStore}
    {opens : VaultBody → Prop} (h : Fx.Answers m x w r) (hplain : Plain r)
    (hok : ∀ store, r = .ok store → (∀ v : Disk, v.fs path = w.fs path → store.Current path v) ∧
      opens store.body)
    (hopens : ∀ body, opens body → ∃ store, r = .ok store) :
    Opening path w opens (x.run m w) := by
  obtain ⟨w', hrun, hframe⟩ := h
  have hfs : w'.fs path = w.fs path := hframe.fs path (by simp)
  rw [hrun]
  cases r with
  | ok store =>
    obtain ⟨hcurrent, hbody⟩ := hok store rfl
    exact ⟨hcurrent w' hfs, hbody⟩
  | error e =>
    refine ⟨hplain e rfl, hfs, fun body hbody => ?_⟩
    obtain ⟨store, hstore⟩ := hopens body hbody
    cases hstore

/-- An error where nothing opens the vault. -/
theorem Opening.of_bail {x : Prog VaultStore} {msg : String} {opens : VaultBody → Prop}
    (h : Fx.Answers m x w (bail msg)) (hopens : ∀ body, ¬opens body) :
    Opening path w opens (x.run m w) := by
  obtain ⟨w', hrun, hframe⟩ := h
  rw [hrun]
  exact ⟨⟨msg, rfl⟩, hframe.fs path (by simp), hopens⟩

/-- The same ways to open, said in other words. -/
theorem Opening.congr {opens opens' : VaultBody → Prop} {result : Result VaultStore × Disk}
    (h : Opening path w opens result) (hiff : ∀ body, opens body ↔ opens' body) :
    Opening path w opens' result := by
  rw [← show opens = opens' from funext fun body => propext (hiff body)]
  exact h

/-- The next way of opening is tried when one has failed. -/
theorem Opening.openOr {attempt? : Option (Prog VaultStore)} {next : Prog VaultStore}
    {opens opens' : VaultBody → Prop}
    (hattempt : match attempt? with
      | none => ∀ body, ¬opens body
      | some x => Opening path w opens (x.run m w))
    (hnext : ∀ v : Disk, v.fs path = w.fs path → Opening path v opens' (next.run m v)) :
    Opening path w (fun body => opens body ∨ opens' body)
      ((HearthVault.openOr attempt? next).run m w) := by
  have hlast : ∀ v : Disk, v.fs path = w.fs path → (∀ body, ¬opens body) →
      Opening path w (fun body => opens body ∨ opens' body) (next.run m v) := by
    intro v hv hnone
    have hafter := hnext v hv
    rcases hrun : next.run m v with ⟨r, v'⟩
    rw [hrun] at hafter
    cases r with
    | ok store => exact ⟨hafter.1, .inr hafter.2⟩
    | error e =>
      obtain ⟨hmsg, hfs, hnot⟩ := hafter
      exact ⟨hmsg, hfs.trans hv, fun body hbody => hbody.elim (hnone body) (hnot body)⟩
  cases attempt? with
  | none => exact hlast w rfl hattempt
  | some x =>
    unfold HearthVault.openOr
    dsimp only at hattempt ⊢
    rcases hrun : x.run m w with ⟨r, w'⟩
    rw [hrun] at hattempt
    cases r with
    | ok store =>
      have hok : (Fx.attempt x).run m w = (.ok (.ok store), w') := by
        rw [Fx.attempt_run, hrun]
        rfl
      rw [Fx.bind_run_ok hok]
      exact ⟨hattempt.1, .inl hattempt.2⟩
    | error e =>
      obtain ⟨⟨msg, rfl⟩, hfs, hnot⟩ := hattempt
      have herr : (Fx.attempt x).run m w = (.ok (.error msg), w') := by
        rw [Fx.attempt_run, hrun]
        rfl
      rw [Fx.bind_run_ok herr]
      exact hlast w' hfs hnot

variable (hm : m.Faultless)

include hm

theorem readToString_missing (h : w.fs path = none) :
    Fx.Answers m (readToString path) w (bail "No such file or directory") :=
  (Fx.Answers.read_missing hm h).bind_error

/-- Bytes that are no text are an error and no contents. -/
theorem readToString_binary {bytes : List UInt8} (h : w.fs path = some (.binary bytes)) :
    Fx.Answers m (readToString path) w (bail "stream did not contain valid UTF-8") :=
  (Fx.Answers.read hm h).bind fun _ _ => Fx.Answers.ofResult

/-- A wrap key opens a v2 file or nothing, and changes nothing. -/
theorem VaultStore.openAtWithWrapKey_opens (key : Key) : Opening path w
    (fun body => ∃ c store, w.fs path = some c ∧
      VaultStore.openWrapKeyContents path key c = .ok store ∧ store.body = body)
    ((VaultStore.openAtWithWrapKey path key).run m w) := by
  cases hfs : w.fs path with
  | none =>
    refine .of_bail (readToString_missing hm hfs).bind_error ?_
    rintro body ⟨c, store, h, -⟩
    cases h
  | some c =>
    by_cases hbinary : ∃ bytes, c = .binary bytes
    · obtain ⟨bytes, rfl⟩ := hbinary
      refine .of_bail (readToString_binary hm hfs).bind_error ?_
      rintro body ⟨c, store, ⟨⟩, hstore, -⟩
      cases (VaultStore.openWrapKeyContents_eq_ok hstore).2
    · have hread : Fx.Answers m (VaultStore.openAtWithWrapKey path key) w
          (VaultStore.openWrapKeyContents path key c) :=
        (readToString_answers hm hfs fun bytes h => hbinary ⟨bytes, h⟩).bind
          fun _ _ => Fx.Answers.ofResult
      refine .of_answers hread (VaultStore.openWrapKeyContents_plain path key c)
        (fun store hstore => ⟨fun v hv => ?_, c, store, rfl, hstore, rfl⟩) ?_
      · exact VaultStore.openWrapKeyContents_current (hv.trans hfs) hstore
      · rintro body ⟨c', store, ⟨⟩, hstore, -⟩
        exact ⟨store, hstore⟩

/-- A v1 file that converts is replaced by a v2 file of its entries. -/
theorem migrateV1ToV2_run {text p : Str} {file : VaultFileV1} {body : VaultBody}
    (hv1 : w.fs path = some (.v1 text file)) (hconv : convertV1 file p = .ok body) :
    ∃ v2 key w', Holds v2 p none key body ∧ (migrateV1ToV2 path p).run m w = (.ok (), w') ∧
      w'.fs path = some (.v2 v2) := by
  have hbackup := (backupV1_eq_ok hv1).mpr ⟨hconv, fun op _ => hm.next w op, rfl⟩
  obtain ⟨v2, hholds, hreplace⟩ := replaceV1_run m path p body (backedUp w path (.v1 text file))
  set v : Disk := { backedUp w path (.v1 text file) with
    rng := (backedUp w path (.v1 text file)).rng + 4 } with hv
  have hwrite := (Fx.write_eq_ok (m := m) (w := v) (p := path) (c := Contents.v2 v2)
    (u := ())).mpr ⟨hm.next _ _, hm.next _ _, rfl⟩
  set v₁ := (((v.tick (.truncate path)).put path (Torn.torn [])).tick (.fill path)).put path
    (Contents.v2 v2) with hv₁
  have hfs : v₁.fs path = some (.v2 v2) := by simp [hv₁]
  obtain ⟨w', hrestrict, hframe⟩ : Fx.Answers m (restrictToOwner path) v₁ (.ok ()) := by
    have hstat : Fx.Answers m (Fx.metadata path : Prog Unit) v₁ (.ok ()) :=
      ⟨_, Fx.metadata_eq_ok.mpr ⟨hm.next _ _, by simp [hfs], rfl⟩, (World.Frame.refl ∅ v₁).tick _⟩
    refine hstat.bind fun u hu => ?_
    have hfsu : u.fs path = some (.v2 v2) := by rw [hu.fs path (by simp), hfs]
    exact ⟨_, Fx.chmod_eq_ok.mpr ⟨hm.next _ _, by simp [hfsu], rfl⟩, (World.Frame.refl ∅ u).tick _⟩
  refine ⟨v2, _, w', hholds, ?_, by rw [hframe.fs path (by simp), hfs]⟩
  rw [migrateV1ToV2, Fx.bind_run_ok hbackup, hreplace, publish, Fx.bind_run_ok hwrite]
  exact Fx.mapErr_eq_ok.mpr hrestrict

namespace VaultStore

/-- A new vault is written, and its store is current. -/
theorem createNew_run (p : Str) : ∃ store w', (createNew path p).run m w = (.ok store, w') ∧
    store.Current path w' ∧ store.body = ∅ ∧ store.kdf = .default := by
  set w₃ : Disk := { w with rng := w.rng + 3 } with hw₃
  have hunchanged : (created path p w.rng).unchanged (w₃.fs (created path p w.rng).path) = true :=
    rfl
  obtain ⟨w', hsave, hfs, -⟩ := save_run hm hunchanged
  refine ⟨{ created path p w.rng with
    loadedFp := some ⟨.v2 ((created path p w.rng).toFile w₃.rng)⟩, lock := false }, w', ?_,
    ⟨rfl, _, hfs, rfl, decryptBody_sealed, rfl⟩, rfl, rfl⟩
  have hrandom : ∀ v : Disk, (Fx.random : Prog Nat).run m v =
      (.ok v.rng, { v with rng := v.rng + 1 }) := fun v => rfl
  rw [createNew, Fx.bind_run_ok (hrandom w), Fx.bind_run_ok (hrandom _), Fx.bind_run_ok (hrandom _)]
  rw [fresh_eq_created, Fx.ofResult_ok_bind, Fx.bind_run_ok hsave]
  rfl

/-- Past the check that there is a file. -/
theorem openAtWithPassphrase_run {c : Contents} (h : w.fs path = some c) (p : Str) :
    ∃ v, w.Frame ∅ v ∧ (openAtWithPassphrase path p).run m w = (do
      let contents ← readToString path
      let versioned ← Fx.ofResult (hasVersion contents)
      Fx.when (versioned = false) <| underLock false path do
        let again ← readToString path
        let versioned ← Fx.ofResult (hasVersion again)
        Fx.when (versioned = false) (migrateV1ToV2 path p)
      loadV2 path p : Prog VaultStore).run m v := by
  obtain ⟨v, hexists, hv⟩ := Fx.Answers.pathExists hm (w := w) path
  rw [h, Option.isSome_some] at hexists
  exact ⟨v, hv, by rw [openAtWithPassphrase, Fx.bind_run_ok hexists, if_pos rfl]⟩

/-- A file with a version is loaded as it stands. -/
theorem openAtWithPassphrase_versioned {c : Contents} (h : w.fs path = some c)
    (hversion : hasVersion c = .ok true) (p : Str) :
    Fx.Answers m (openAtWithPassphrase path p) w (loadV2Contents path p c) := by
  have htext : ∀ bytes, c ≠ .binary bytes := by
    rintro bytes rfl
    cases hversion
  obtain ⟨v, hv, hrun⟩ := openAtWithPassphrase_run hm h p
  have hfs : v.fs path = some c := by rw [hv.fs path (by simp), h]
  obtain ⟨w', hrest, hw'⟩ : Fx.Answers m (do
      let contents ← readToString path
      let versioned ← Fx.ofResult (hasVersion contents)
      Fx.when (versioned = false) <| underLock false path do
        let again ← readToString path
        let versioned ← Fx.ofResult (hasVersion again)
        Fx.when (versioned = false) (migrateV1ToV2 path p)
      loadV2 path p : Prog VaultStore) v (loadV2Contents path p c) := by
    refine (readToString_answers hm hfs htext).bind fun u hu => ?_
    rw [hversion, Fx.ofResult_ok_bind]
    refine (Fx.Answers.when nofun).bind fun u' hu' => ?_
    have hfs' : u'.fs path = some c := by rw [hu'.fs path (by simp), hu.fs path (by simp), hfs]
    exact (readToString_answers hm hfs' htext).bind fun _ _ => Fx.Answers.ofResult
  exact ⟨w', hrun.trans hrest, hv.trans hw'⟩

/-- A file that is not of either format. -/
theorem openAtWithPassphrase_other {c : Contents} (h : w.fs path = some c)
    (hv1 : ∀ text file, c ≠ .v1 text file) (hversion : hasVersion c ≠ .ok true) (p : Str) :
    ∃ msg, Fx.Answers m (openAtWithPassphrase path p) w (bail msg) := by
  obtain ⟨v, hv, hrun⟩ := openAtWithPassphrase_run hm h p
  have hfs : v.fs path = some c := by rw [hv.fs path (by simp), h]
  suffices hrest : ∃ msg, Fx.Answers m (do
      let contents ← readToString path
      let versioned ← Fx.ofResult (hasVersion contents)
      Fx.when (versioned = false) <| underLock false path do
        let again ← readToString path
        let versioned ← Fx.ofResult (hasVersion again)
        Fx.when (versioned = false) (migrateV1ToV2 path p)
      loadV2 path p : Prog VaultStore) v (bail msg) by
    obtain ⟨msg, w', hrest, hw'⟩ := hrest
    exact ⟨msg, w', hrun.trans hrest, hv.trans hw'⟩
  cases c with
  | v1 text file => exact absurd rfl (hv1 text file)
  | v2 file => exact absurd rfl hversion
  | bundle b => exact absurd rfl hversion
  | binary bytes => exact ⟨_, (readToString_binary hm hfs).bind_error⟩
  | text s =>
    exact ⟨_, (readToString_answers hm hfs nofun).bind fun _ _ =>
      Fx.Answers.bind_error Fx.Answers.ofResult⟩
  | json versioned s =>
    cases versioned with
    | true => exact absurd rfl hversion
    | false =>
      -- Other JSON is taken for a v1 vault, and then does not parse as one.
      refine ⟨"corrupt v1 vault file", (readToString_answers hm hfs nofun).bind fun u hu => ?_⟩
      rw [hasVersion, Fx.ofResult_ok_bind]
      refine Fx.Answers.bind_error ?_
      simp only [Fx.when, if_true]
      refine underLock_answers hm fun u₁ hu₁ => ?_
      have hfs₁ : u₁.fs path = some (.json false s) := by
        rw [hu₁.fs path (by simp), hu.fs path (by simp), hfs]
      refine (readToString_answers hm hfs₁ nofun).bind fun u₂ hu₂ => ?_
      have hfs₂ : u₂.fs path = some (.json false s) := by rw [hu₂.fs path (by simp), hfs₁]
      rw [hasVersion, Fx.ofResult_ok_bind, if_pos rfl]
      exact Fx.Answers.bind_error ((readToString_answers hm hfs₂ nofun).bind fun _ _ =>
        Fx.Answers.bind_error Fx.Answers.ofResult)

/-- A v1 vault is migrated on the way. -/
theorem openAtWithPassphrase_v1 {text : Str} {file : VaultFileV1}
    (h : w.fs path = some (.v1 text file)) (p : Str) : Opening path w
    (fun body => convertV1 file p = .ok body) ((openAtWithPassphrase path p).run m w) := by
  obtain ⟨v, hv, hrun⟩ := openAtWithPassphrase_run hm h p
  have hfs : v.fs path = some (.v1 text file) := by rw [hv.fs path (by simp), h]
  obtain ⟨v₁, hread, hv₁⟩ := readToString_answers hm hfs (by simp)
  obtain ⟨v₂, hv₂, hlocked⟩ := underLock_run hm false path (do
    let again ← readToString path
    let versioned ← Fx.ofResult (hasVersion again)
    Fx.when (versioned = false) (migrateV1ToV2 path p)) v₁
  have hfs₂ : v₂.fs path = some (.v1 text file) := by
    rw [hv₂.fs path (by simp), hv₁.fs path (by simp), hfs]
  obtain ⟨v₃, hagain, hv₃⟩ := readToString_answers hm hfs₂ (by simp)
  have hfs₃ : v₃.fs path = some (.v1 text file) := by rw [hv₃.fs path (by simp), hfs₂]
  -- Everything up to the migration is reading.
  rw [hrun, Fx.bind_run_ok hread, hasVersion, Fx.ofResult_ok_bind, Fx.when, if_pos rfl, Fx.bind_run,
    hlocked, Fx.bind_run_ok hagain, hasVersion, Fx.ofResult_ok_bind, Fx.when, if_pos rfl]
  cases hconv : convertV1 file p with
  | error e =>
    obtain ⟨msg, rfl⟩ := convertV1_plain file p e hconv
    obtain ⟨w', hfail, hw'⟩ : Fx.Answers m (migrateV1ToV2 path p) v₃ (bail msg) := by
      refine Fx.Answers.bind_error ((readToString_answers hm hfs₃ (by simp)).bind fun u hu => ?_)
      rw [parseV1, Fx.ofResult_ok_bind, hconv]
      exact Fx.Answers.bind_error Fx.Answers.ofResult
    rw [hfail]
    refine ⟨⟨msg, rfl⟩, ?_, by simp⟩
    rw [hw'.fs path (by simp), hfs₃, h]
  | ok body =>
    obtain ⟨v2, key, w', hholds, hmigrate, hfs'⟩ := migrateV1ToV2_run hm hfs₃ hconv
    obtain ⟨w'', hload, hw''⟩ := loadV2_answers hm hfs' p
    rw [hmigrate]
    dsimp only
    rw [hload, (hholds.load_iff path p _).mpr ⟨rfl, rfl⟩]
    refine ⟨⟨rfl, v2, ?_, hholds.parseV2, ?_, rfl⟩, rfl⟩
    · rw [hw''.fs path (by simp), hfs']
    · obtain ⟨nonce, hvault⟩ := hholds.vault
      rw [hvault]
      exact decryptBody_sealed

/-- Where there is no file a vault is created, under the lock. -/
theorem openAtWithPassphrase_absent (hfs : w.fs path = none) (p : Str) :
    ∃ store w', (openAtWithPassphrase path p).run m w = (.ok store, w') ∧
      store.Current path w' ∧ store.body = ∅ ∧ store.kdf = .default := by
  obtain ⟨v, hexists, hv⟩ := Fx.Answers.pathExists hm (w := w) path
  obtain ⟨v₁, hlock, hv₁⟩ : Fx.Answers m (acquire path) v (.ok ()) := acquire_answers hm
  obtain ⟨v₂, hagain, hv₂⟩ := Fx.Answers.pathExists hm (w := v₁) path
  rw [hfs, Option.isSome_none] at hexists
  rw [hv₁.fs path (by simp), hv.fs path (by simp), hfs, Option.isSome_none] at hagain
  obtain ⟨store, w', hcreate, hcreated⟩ := createNew_run hm (w := v₂) p
  refine ⟨store, w', ?_, hcreated⟩
  rw [openAtWithPassphrase, Fx.bind_run_ok hexists, if_neg (by simp), Fx.bind_run_ok hlock,
    Fx.bind_run_ok hagain, if_neg (by simp), Fx.releasing_run, hcreate]

/-- A passphrase: no file, a v1 file that it migrates, a v2 file, or a file it
does not open. -/
theorem openAtWithPassphrase_opens (p : Str) : Opening path w
    (PassphraseOpens path p (w.fs path)) ((openAtWithPassphrase path p).run m w) := by
  cases hfs : w.fs path with
  | none =>
    obtain ⟨store, w', hrun, hcurrent, hbody, -⟩ := openAtWithPassphrase_absent hm hfs p
    rw [hrun]
    exact ⟨hcurrent, hbody⟩
  | some c =>
    by_cases hv1 : ∃ text file, c = .v1 text file
    · obtain ⟨text, file, rfl⟩ := hv1
      exact openAtWithPassphrase_v1 hm hfs p
    · have hopens : ∀ body, PassphraseOpens path p (some c) body ↔
          ∃ store, loadV2Contents path p c = .ok store ∧ store.body = body := by
        intro body
        cases c with
        | v1 text file => exact absurd ⟨text, file, rfl⟩ hv1
        | _ => rfl
      by_cases hversion : hasVersion c = .ok true
      · refine .of_answers (openAtWithPassphrase_versioned hm hfs hversion p)
          (loadV2Contents_plain path p c) (fun store hstore => ⟨fun v hv => ?_, ?_⟩)
          fun body hbody => ?_
        · exact loadV2Contents_current (hv.trans hfs) hstore
        · exact (hopens _).mpr ⟨store, hstore, rfl⟩
        · obtain ⟨store, hstore, -⟩ := (hopens body).mp hbody
          exact ⟨store, hstore⟩
      · obtain ⟨msg, hfail⟩ := openAtWithPassphrase_other hm hfs
          (fun text file h => hv1 ⟨text, file, h⟩) hversion p
        refine .of_bail hfail fun body hbody => ?_
        obtain ⟨store, hstore, -⟩ := (hopens body).mp hbody
        simp only [loadV2Contents, result_bind_eq_ok] at hstore
        obtain ⟨file, hfile, -⟩ := hstore
        cases parseV2_eq_ok hfile
        exact hversion rfl

end VaultStore

/-- `open_vault` answers what one of the secrets at hand opens, or fails and
leaves the file as it was. -/
theorem openVault_opens (unlock : Unlock) : Opening path w (unlock.Opens path (w.fs path))
    ((openVault path unlock).run m w) := by
  refine Opening.openOr ?_ fun v hv => Opening.openOr ?_ fun u hu => ?_
  · cases hunsealed : unlock.unsealed with
    | none =>
      rintro body ⟨p, h, -⟩
      cases h
    | some p =>
      refine (VaultStore.openAtWithPassphrase_opens hm p).congr fun body => ?_
      constructor
      · exact fun h => ⟨p, rfl, h⟩
      · rintro ⟨_, ⟨⟩, h⟩
        exact h
  · cases hagent : unlock.agent with
    | none =>
      rintro body ⟨key, _, _, h, -⟩
      cases h
    | some key =>
      refine (VaultStore.openAtWithWrapKey_opens hm key).congr fun body => ?_
      rw [hv]
      constructor
      · rintro ⟨c, store, h⟩
        exact ⟨key, c, store, rfl, h⟩
      · rintro ⟨_, c, store, ⟨⟩, h⟩
        exact ⟨c, store, h⟩
  · rw [← hv, ← hu]
    exact VaultStore.openAtWithPassphrase_opens hm unlock.passphrase

/-- The vault is read again under the lock, and is still what it was. -/
theorem VaultStore.Current.lockAndRefresh {store : VaultStore} (h : store.Current path w) :
    ∃ store' w', store.lockAndRefresh.run m w = (.ok store', w') ∧ w.Frame ∅ w' ∧
      store'.Current path w' ∧ store'.body = store.body ∧ store'.lock = true := by
  obtain ⟨rfl, file, hfs, hversion, hbody, -⟩ := h
  obtain ⟨w', hrun, hframe⟩ := VaultStore.lockAndRefresh_answers hm hfs nofun
  have hrefresh : store.refresh (.v2 file) = .ok { store with
      body := store.body, kdf := file.kdf, wrapPassphrase := file.wrap.passphrase,
      wrapRecovery := file.wrap.recovery, lock := true, loadedFp := some ⟨.v2 file⟩ } := by
    simp [VaultStore.refresh, hversion, hbody, mapErr]
  rw [hrefresh] at hrun
  refine ⟨_, w', hrun, hframe, ⟨rfl, file, ?_, hversion, hbody, rfl⟩, rfl, rfl⟩
  rw [hframe.fs _ (by simp), hfs]

end

theorem VaultStore.Current.entries {store : VaultStore} {path : Path} {w : Disk}
    (h : store.Current path w) : Entries (w.fs path) store.body := by
  obtain ⟨-, file, hfs, -, hbody, -⟩ := h
  rw [hfs]
  exact sealedBody_of_decryptBody hbody

/-- A change of the body alone leaves the file the one that was loaded. -/
theorem VaultStore.Current.unchanged {store store' : VaultStore} {path : Path} {w : Disk}
    (h : store.Current path w) (hothers : store' = { store with body := store'.body }) :
    store'.unchanged (w.fs store'.path) = true := by
  obtain ⟨rfl, file, hfs, -, -, hfp⟩ := h
  rw [hothers]
  simp [VaultStore.unchanged, hfs, hfp]

end HearthVault
