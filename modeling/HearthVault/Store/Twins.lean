/-
HearthVault.Store.Twins — vaults that agree on everything except the values
stored at tier 4.

`BodyEntry.Twins` relates entries that are the same up to such a value, and
`VaultBody.Twins K` bodies of such entries that are the same at the keys of
`K`. The operations on a body keep twins, and what is set is the same in both;
`retier` does so only if it leaves tier 4 alone (`retierEntry_twins`). Twin
files seal twin bodies with the same keys, or if they are v1 the values of twin
entries, and are opened alike.
-/
import HearthVault.Lib.Lists
import HearthVault.Lib.TwoRuns
import HearthVault.Store.Migrate
import HearthVault.Store.SealingTheorems

namespace HearthVault

open Files Symbolic Calendar Elementwise

/-! ## Entries and bodies -/

/-- Entries that are the same, or that differ in a value of tier 4. -/
inductive BodyEntry.Twins : BodyEntry → BodyEntry → Prop
  | same (e : BodyEntry) : Twins e e
  | signOnly (e : BodyEntry) (value : Str) (h : e.tier = tierSignOnly) : Twins e { e with value }

/-- Bodies with twin entries, that are the same at the keys of `K`. -/
structure VaultBody.Twins (K : Set Str) (body body' : VaultBody) : Prop where
  entries : ∀ key : Str, Option.Rel BodyEntry.Twins body[key]? body'[key]?
  known : ∀ key ∈ K, body[key]? = body'[key]?

namespace BodyEntry.Twins

variable {e e' : BodyEntry}

/-- The tier of twin entries is the same, whatever their values are. -/
theorem tier (h : e.Twins e') : e'.tier = e.tier := by
  cases h <;> rfl

/-- Values differ at tier 4 only. -/
theorem value (h : e.Twins e') (htier : e.tier ≠ tierSignOnly) : e'.value = e.value := by
  cases h with
  | same => rfl
  | signOnly value h => exact absurd h htier

end BodyEntry.Twins

namespace VaultBody.Twins

variable {K : Set Str} {body body' : VaultBody}

/-- Every body is its own twin at all keys. -/
theorem refl (K : Set Str) (body : VaultBody) : VaultBody.Twins K body body := by
  refine ⟨fun key => ?_, fun _ _ => rfl⟩
  cases body[key]? with
  | none => exact .none
  | some e => exact .some (.same e)

theorem mono {K' : Set Str} (h : body.Twins K body') (hK : K' ⊆ K) : body.Twins K' body' :=
  ⟨h.entries, fun key hkey => h.known key (hK hkey)⟩

/-- A key is absent from both, or has twin entries in both. -/
theorem cases (h : body.Twins K body') (key : Str) : body[key]? = none ∧ body'[key]? = none ∨
    ∃ e e' : BodyEntry, body[key]? = some e ∧ body'[key]? = some e' ∧ e.Twins e' := by
  have hentry := h.entries key
  cases hleft : body[key]? with
  | none =>
    rw [hleft] at hentry
    cases hright : body'[key]? with
    | none => exact .inl ⟨rfl, rfl⟩
    | some e' =>
      rw [hright] at hentry
      cases hentry
  | some e =>
    rw [hleft] at hentry
    cases hright : body'[key]? with
    | none =>
      rw [hright] at hentry
      cases hentry
    | some e' =>
      rw [hright] at hentry
      cases hentry with
      | some he => exact .inr ⟨e, e', rfl, rfl, he⟩

/-- Twin bodies have the same keys. -/
theorem has (h : body.Twins K body') (key : Str) : body'.has key = body.has key := by
  obtain ⟨hleft, hright⟩ | ⟨e, e', hleft, hright, -⟩ := h.cases key
  · simp [VaultBody.has, hleft, hright]
  · simp [VaultBody.has, hleft, hright]

/-- At the same tiers. -/
theorem tierOf (h : body.Twins K body') (key : Str) : body'.tierOf key = body.tierOf key := by
  obtain ⟨hleft, hright⟩ | ⟨e, e', hleft, hright, he⟩ := h.cases key
  · simp [VaultBody.tierOf, hleft, hright]
  · simp [VaultBody.tierOf, hleft, hright, he.tier]

/-- A value that is not at tier 4 is the same in both. -/
theorem value? (h : body.Twins K body') {key : Str} (htier : body.tierOf key ≠ some tierSignOnly) :
    body'.value? key = body.value? key := by
  obtain ⟨hleft, hright⟩ | ⟨e, e', hleft, hright, he⟩ := h.cases key
  · simp [VaultBody.value?, hleft, hright]
  · have hne : e.tier ≠ tierSignOnly := by simpa [VaultBody.tierOf, hleft] using htier
    simp [VaultBody.value?, hleft, hright, he.value hne]

/-- A known key needs one and the same entry. -/
theorem insert (h : body.Twins K body') (key : Str) {e e' : BodyEntry} (he : e.Twins e')
    (hknown : key ∈ K → e = e') :
    VaultBody.Twins K (body.insert key e) (body'.insert key e') := by
  refine ⟨fun k => ?_, fun k hk => ?_⟩
  · rw [Std.ExtTreeMap.getElem?_insert, Std.ExtTreeMap.getElem?_insert]
    split
    · exact .some he
    · exact h.entries k
  · rw [Std.ExtTreeMap.getElem?_insert, Std.ExtTreeMap.getElem?_insert]
    split
    · rename_i heq
      rw [hknown (Std.LawfulEqCmp.eq_of_compare heq ▸ hk)]
    · exact h.known k hk

/-- What is put into both is the same in both. -/
theorem put (h : body.Twins K body') (key : Str) (e : BodyEntry) :
    VaultBody.Twins (Insert.insert key K) (body.insert key e) (body'.insert key e) := by
  refine ⟨(h.insert key (.same e) fun _ => rfl).entries, fun k hk => ?_⟩
  rw [Std.ExtTreeMap.getElem?_insert, Std.ExtTreeMap.getElem?_insert]
  split
  · rfl
  · rename_i hne
    obtain rfl | hk := hk
    · simp at hne
    · exact h.known k hk

/-- What is deleted differs no more. -/
theorem erase (h : body.Twins K body') (key : Str) :
    VaultBody.Twins K (body.erase key) (body'.erase key) := by
  refine ⟨fun k => ?_, fun k hk => ?_⟩
  · rw [Std.ExtTreeMap.getElem?_erase, Std.ExtTreeMap.getElem?_erase]
    split
    · exact .none
    · exact h.entries k
  · rw [Std.ExtTreeMap.getElem?_erase, Std.ExtTreeMap.getElem?_erase, h.known k hk]

end VaultBody.Twins

/-! ## The operations on a body -/

section

variable {K : Set Str} {body body' : VaultBody} {now : DateTime} {key : Str}

/-- An entry is stored by what twins have in common. -/
theorem storedEntry_twins (h : body.Twins K body') (value : Str) (tier : UInt8) :
    storedEntry now body'[key]? value tier = storedEntry now body[key]? value tier := by
  obtain ⟨hleft, hright⟩ | ⟨e, e', hleft, hright, he⟩ := h.cases key
  · rw [hleft, hright]
  · rw [hleft, hright]
    cases he <;> rfl

/-- What is set is the same, so its key is known from then on. -/
theorem setEntry_twins (h : body.Twins K body') (value : Str) (tier : UInt8) :
    Concur (VaultBody.Twins (insert key K)) (setEntry now key value tier body)
      (setEntry now key value tier body') := by
  unfold setEntry
  refine Concur.bind_same _ fun _ => ?_
  rw [storedEntry_twins h]
  exact Concur.bind_same _ fun e => h.put key e

/-- A change in place of twin entries that makes twins of them. -/
theorem modifyEntry_twins (h : body.Twins K body') {f : BodyEntry → Result BodyEntry}
    (hf : ∀ e e', body[key]? = some e → e.Twins e' → Concur BodyEntry.Twins (f e) (f e')) :
    Concur (VaultBody.Twins K) (modifyEntry key f body) (modifyEntry key f body') := by
  unfold modifyEntry
  obtain ⟨hleft, hright⟩ | ⟨e, e', hleft, hright, he⟩ := h.cases key
  · rw [hleft, hright]
    exact rfl
  · rw [hleft, hright]
    by_cases hknown : key ∈ K
    · -- What is the same stays so.
      obtain rfl : e = e' := by simpa [hleft, hright] using h.known key hknown
      exact Concur.bind_same (f e) fun a => h.insert key (.same a) fun _ => rfl
    · exact Concur.bind (hf e e' hleft he) fun a b hab =>
        h.insert key hab fun hkey => absurd hkey hknown

/-- A policy is counted from the present time, and not from a value. -/
theorem setRotation_twins (h : body.Twins K body') (days : Option UInt32) :
    Concur (VaultBody.Twins K) (setRotation now key days body)
      (setRotation now key days body') := by
  refine modifyEntry_twins h fun e e' _ he => ?_
  refine Concur.bind_same _ fun due => ?_
  cases he with
  | same => exact BodyEntry.Twins.same _
  | signOnly value htier => exact BodyEntry.Twins.signOnly _ value htier

theorem setExpiry_twins (h : body.Twins K body') (due : Option Str) :
    Concur (VaultBody.Twins K) (setExpiry key due body) (setExpiry key due body') := by
  refine modifyEntry_twins h fun e e' _ he => ?_
  cases he with
  | same => exact BodyEntry.Twins.same _
  | signOnly value htier => exact BodyEntry.Twins.signOnly _ value htier

/-- Leaving tier 4 would show the values that twins differ in. -/
theorem retierEntry_twins (h : body.Twins K body') {tier : UInt8}
    (hguard : body.tierOf key = some tierSignOnly → tier = tierSignOnly) :
    Concur (VaultBody.Twins K) (retierEntry now key tier body)
      (retierEntry now key tier body') := by
  unfold retierEntry
  refine Concur.bind_same _ fun _ => modifyEntry_twins h fun e e' hentry he => ?_
  cases he with
  | same => exact BodyEntry.Twins.same _
  | signOnly value htier =>
    refine BodyEntry.Twins.signOnly _ value (hguard ?_)
    rw [VaultBody.tierOf, hentry, Option.map_some, htier]

/-- The entry moves as it is, with the value that it has in its own vault. -/
theorem renameEntry_twins {source target : Str} (h : body.Twins ∅ body') :
    Concur (VaultBody.Twins ∅) (renameEntry source target body)
      (renameEntry source target body') := by
  unfold renameEntry
  split
  · exact h
  · obtain ⟨hleft, hright⟩ | ⟨e, e', hleft, hright, he⟩ := h.cases source
    · rw [hleft, hright]
      exact rfl
    · rw [hleft, hright, h.has]
      dsimp only
      split
      · exact rfl
      · exact (h.erase source).insert target he nofun

end

/-! ## v1 files -/

/-- v1 entries that are the same, or that are ciphertexts of two values of
tier 4. -/
inductive EncryptedEntryV1.Twins : EncryptedEntryV1 → EncryptedEntryV1 → Prop
  | same (e : EncryptedEntryV1) : Twins e e
  | signOnly (key : Key) (nonce : Nat) (aad value value' : Str) (createdAt updatedAt : Str) :
    Twins ⟨sealed key nonce aad (.utf8 value), tierSignOnly, createdAt, updatedAt⟩
      ⟨sealed key nonce aad (.utf8 value'), tierSignOnly, createdAt, updatedAt⟩

/-- v1 files with twin entries. -/
structure VaultFileV1.Twins (file file' : VaultFileV1) : Prop where
  salt : file'.salt = file.salt
  recovery : file'.recoveryKeyEncrypted = file.recoveryKeyEncrypted
  entries : ∀ key : Str, Option.Rel EncryptedEntryV1.Twins file.entries[key]? file'.entries[key]?

/-- An old value at tier 4 need not be the same, and is not looked at. -/
theorem migrateEntry_twins {e e' : EncryptedEntryV1} (h : e.Twins e') (key : Key) (name : Str) :
    Concur BodyEntry.Twins (migrateEntry key name e) (migrateEntry key name e') := by
  cases h with
  | same => exact Concur.refl BodyEntry.Twins.same _
  | signOnly k nonce aad value value' createdAt updatedAt =>
    simp only [migrateEntry, sealed, B64.decode_encoded, result_ok_bind, Sealed.decrypt]
    by_cases hkey : k = key ∧ aad = []
    · rw [if_pos hkey, if_pos hkey]
      exact BodyEntry.Twins.signOnly _ value' rfl
    · rw [if_neg hkey, if_neg hkey]
      exact rfl

/-- The loop of the migration, by induction on the entries of both files. -/
theorem migrateEntries_twins {l l' : List (Str × EncryptedEntryV1)}
    (h : List.Forall₂ (fun p q => p.1 = q.1 ∧ p.2.Twins q.2) l l') (key : Key)
    {body body' : VaultBody} (hbody : body.Twins ∅ body') :
    Concur (VaultBody.Twins ∅) (migrateEntries key body l) (migrateEntries key body' l') := by
  induction h generalizing body body' with
  | nil => exact hbody
  | @cons p q l l' hpq _ ih =>
    obtain ⟨name, e⟩ := p
    obtain ⟨_, e'⟩ := q
    obtain ⟨rfl, he⟩ := hpq
    exact (migrateEntry_twins he key name).bind fun _ _ hmigrated =>
      ih (hbody.insert name hmigrated nofun)

/-- Twin files are migrated to twin bodies. -/
theorem convertV1_twins {file file' : VaultFileV1} (h : file.Twins file') (passphrase : Str) :
    Concur (VaultBody.Twins ∅) (convertV1 file passphrase) (convertV1 file' passphrase) := by
  unfold convertV1 v1EntryKey
  rw [h.salt]
  exact Concur.bind_same _ fun key =>
    migrateEntries_twins (forall₂_toList h.entries) key (.refl ∅ ∅)

/-! ## Files and stores -/

/-- Ciphertexts that are the same, or that seal twin bodies alike. -/
inductive SealedTwins : B64 Ciphertext → B64 Ciphertext → Prop
  | same (c : B64 Ciphertext) : SealedTwins c c
  | body (key : Key) (nonce : Nat) (aad : Str) {body body' : VaultBody} (h : body.Twins ∅ body') :
    SealedTwins (sealed key nonce aad (.body body)) (sealed key nonce aad (.body body'))

/-- Vault files that are the same up to what is sealed in them. -/
structure VaultFileV2.Twins (file file' : VaultFileV2) : Prop where
  version : file'.version = file.version
  kdf : file'.kdf = file.kdf
  wrap : file'.wrap = file.wrap
  vault : SealedTwins file.vault file'.vault

/-- Files that are the same, or that are twin vaults. -/
inductive Contents.Twins : Contents → Contents → Prop
  | same (c : Contents) : Twins c c
  | v1 (text text' : Str) {file file' : VaultFileV1} (h : file.Twins file') :
    Twins (.v1 text file) (.v1 text' file')
  | v2 {file file' : VaultFileV2} (h : file.Twins file') : Twins (.v2 file) (.v2 file')

/-- Stores that are the same up to their bodies and what they were read from. -/
structure VaultStore.Twins (K : Set Str) (store store' : VaultStore) : Prop where
  path : store'.path = store.path
  kdf : store'.kdf = store.kdf
  wrapPassphrase : store'.wrapPassphrase = store.wrapPassphrase
  wrapRecovery : store'.wrapRecovery = store.wrapRecovery
  dataKey : store'.dataKey = store.dataKey
  lock : store'.lock = store.lock
  body : store.body.Twins K store'.body

theorem VaultFileV2.Twins.refl (file : VaultFileV2) : file.Twins file :=
  ⟨rfl, rfl, rfl, .same _⟩

theorem VaultStore.Twins.refl (store : VaultStore) : store.Twins ∅ store :=
  ⟨rfl, rfl, rfl, rfl, rfl, rfl, .refl ∅ _⟩

/-- The same key opens twin ciphertexts, or neither. -/
theorem decryptBody_twins {c c' : B64 Ciphertext} (h : SealedTwins c c') (key : Key) :
    Concur (VaultBody.Twins ∅) (decryptBody key c) (decryptBody key c') := by
  cases h with
  | same => exact Concur.refl (VaultBody.Twins.refl ∅) _
  | body k nonce aad h =>
    simp only [decryptBody, sealed, B64.decode_encoded, result_ok_bind, Sealed.decrypt]
    by_cases hkey : k = key ∧ aad = aadVault
    · rw [if_pos hkey, if_pos hkey]
      exact h
    · rw [if_neg hkey, if_neg hkey]
      exact rfl

/-- Twin files are both v2 files, or none is. -/
theorem parseV2_twins {c d : Contents} (h : c.Twins d) :
    Concur VaultFileV2.Twins (parseV2 c) (parseV2 d) := by
  cases h with
  | same => exact Concur.refl VaultFileV2.Twins.refl _
  | v1 => exact rfl
  | v2 h =>
    simp only [parseV2, h.version]
    split
    · exact rfl
    · exact h

theorem VaultFileV1.Twins.refl (file : VaultFileV1) : file.Twins file := by
  refine ⟨rfl, rfl, fun key => ?_⟩
  cases file.entries[key]? with
  | none => exact .none
  | some e => exact .some (.same e)

theorem parseV1_twins {c d : Contents} (h : c.Twins d) :
    Concur VaultFileV1.Twins (parseV1 c) (parseV1 d) := by
  cases h with
  | same => exact Concur.refl VaultFileV1.Twins.refl _
  | v1 _ _ h => exact h
  | v2 => exact rfl

/-- Migrated bodies are sealed alike. -/
theorem migratedFile_twins {body body' : VaultBody} (h : body.Twins ∅ body') (passphrase : Str)
    (key salt nonce nonce' : Nat) :
    Concur VaultFileV2.Twins (migratedFile passphrase body key salt nonce nonce')
      (migratedFile passphrase body' key salt nonce nonce') := by
  unfold migratedFile
  exact Concur.bind_same _ fun slot => ⟨rfl, rfl, rfl, .body _ _ _ h⟩

/-- They have a version together. -/
theorem hasVersion_twins {c d : Contents} (h : c.Twins d) : hasVersion d = hasVersion c := by
  cases h <;> rfl

namespace VaultStore

variable {path : Path} {c d : Contents}

theorem ofFile_twins (c d : Contents) {file file' : VaultFileV2} (h : file.Twins file')
    (key : Key) :
    Concur (VaultStore.Twins ∅) (ofFile path c file key) (ofFile path d file' key) := by
  unfold ofFile
  refine (decryptBody_twins h.vault key).bind fun body body' hbody => ?_
  exact ⟨rfl, h.kdf, congrArg WrapSection.passphrase h.wrap, congrArg WrapSection.recovery h.wrap,
    rfl, rfl, hbody⟩

/-- One passphrase opens both or none. -/
theorem loadV2Contents_twins (h : c.Twins d) (passphrase : Str) :
    Concur (VaultStore.Twins ∅) (loadV2Contents path passphrase c)
      (loadV2Contents path passphrase d) := by
  unfold loadV2Contents
  refine (parseV2_twins h).bind fun file file' hfile => ?_
  rw [hfile.wrap, hfile.kdf]
  exact Concur.bind_same _ fun _ => Concur.bind_same _ fun _ => ofFile_twins c d hfile _

theorem openWrapKeyContents_twins (h : c.Twins d) (key : Key) :
    Concur (VaultStore.Twins ∅) (openWrapKeyContents path key c)
      (openWrapKeyContents path key d) := by
  unfold openWrapKeyContents
  refine (parseV2_twins h).bind fun file file' hfile => ?_
  rw [hfile.wrap]
  exact Concur.bind_same _ fun _ => ofFile_twins c d hfile _

/-- Twin stores of one vault, and the files they were loaded from. -/
structure InHand (path : Path) (loaded : Option (VaultFileV2 × VaultFileV2)) (K : Set Str)
    (store store' : VaultStore) : Prop where
  twins : store.Twins K store'
  place : store.path = path
  left : store.loadedFp = loaded.map fun files => ⟨.v2 files.1⟩
  right : store'.loadedFp = loaded.map fun files => ⟨.v2 files.2⟩

/-- Refreshed stores are twins, and what they were loaded from is known. -/
theorem refresh_twins {K : Set Str} {store store' : VaultStore} (hstore : store.Twins K store')
    (h : c.Twins d) : Concur (fun s t => ∃ file file', c = .v2 file ∧ d = .v2 file' ∧
      InHand store.path (some (file, file')) ∅ s t) (store.refresh c) (store'.refresh d) := by
  unfold refresh
  have hfiles : Concur (fun file file' => c = .v2 file ∧ d = .v2 file' ∧ file.Twins file')
      (parseV2 c) (parseV2 d) := by
    cases h with
    | same =>
      cases hfile : parseV2 c with
      | ok file => exact ⟨parseV2_eq_ok hfile, parseV2_eq_ok hfile, .refl file⟩
      | error e => exact rfl
    | v1 => exact rfl
    | v2 h =>
      simp only [parseV2, h.version]
      split
      · exact rfl
      · exact ⟨rfl, rfl, h⟩
  refine hfiles.bind ?_
  rintro file file' ⟨rfl, rfl, hfile⟩
  rw [hstore.dataKey]
  refine ((decryptBody_twins hfile.vault _).mapErr _).bind fun body body' hbody => ?_
  exact ⟨file, file', rfl, rfl, ⟨hstore.path, hfile.kdf, congrArg WrapSection.passphrase hfile.wrap,
    congrArg WrapSection.recovery hfile.wrap, rfl, rfl, hbody⟩, rfl, rfl, rfl⟩

/-- Twin stores write twin files. -/
theorem toFile_twins {K : Set Str} {store store' : VaultStore} (h : store.Twins K store')
    (nonce : Nat) : (store.toFile nonce).Twins (store'.toFile nonce) := by
  refine ⟨rfl, h.kdf, ?_, ?_⟩
  · simp only [toFile, h.wrapPassphrase, h.wrapRecovery]
  · simp only [toFile, h.dataKey]
    exact .body _ _ _ (h.body.mono (Set.empty_subset K))

theorem InHand.mono {loaded : Option (VaultFileV2 × VaultFileV2)} {K K' : Set Str}
    {store store' : VaultStore} (h : InHand path loaded K store store') (hK : K' ⊆ K) :
    InHand path loaded K' store store' := by
  obtain ⟨⟨hpath, hkdf, hpassphrase, hrecovery, hkey, hlock, hbody⟩, hplace, hleft, hright⟩ := h
  exact ⟨⟨hpath, hkdf, hpassphrase, hrecovery, hkey, hlock, hbody.mono hK⟩, hplace, hleft, hright⟩

/-- Bodies that are changed alike. -/
theorem InHand.body {loaded : Option (VaultFileV2 × VaultFileV2)} {K K' : Set Str}
    {store store' : VaultStore} (h : InHand path loaded K store store') {body body' : VaultBody}
    (hbody : body.Twins K' body') :
    InHand path loaded K' { store with body := body } { store' with body := body' } :=
  ⟨⟨h.twins.path, h.twins.kdf, h.twins.wrapPassphrase, h.twins.wrapRecovery, h.twins.dataKey,
    h.twins.lock, hbody⟩, h.place, h.left, h.right⟩

/-- A body operation on both stores in hand. -/
theorem InHand.onBody {loaded : Option (VaultFileV2 × VaultFileV2)} {K K' : Set Str}
    {store store' : VaultStore} (h : InHand path loaded K store store')
    {f f' : VaultBody → Result VaultBody}
    (hf : Concur (VaultBody.Twins K') (f store.body) (f' store'.body)) :
    Concur (InHand path loaded K') (store.onBody f) (store'.onBody f') :=
  hf.bind fun _ _ hbody => h.body hbody

/-- Files that were saved are verified alike at the keys that are known. -/
theorem verifyContents_twins {K : Set Str} {store store' : VaultStore} (h : store.Twins K store')
    (nonce : Nat) {expected : List (Str × Str)} (hexpected : ∀ p ∈ expected, p.1 ∈ K) :
    store'.verifyContents expected (.v2 (store'.toFile nonce)) =
      store.verifyContents expected (.v2 (store.toFile nonce)) := by
  have hmissing : (expected.filter fun p => store'.body.value? p.1 ≠ some p.2) =
      expected.filter fun p => store.body.value? p.1 ≠ some p.2 := by
    refine List.filter_congr fun p hp => ?_
    have hvalue : store'.body.value? p.1 = store.body.value? p.1 := by
      simp only [VaultBody.value?, h.body.known p.1 (hexpected p hp)]
    rw [hvalue]
  have hbody : ∀ store : VaultStore,
      decryptBody store.dataKey (store.toFile nonce).vault = .ok store.body :=
    fun _ => decryptBody_sealed
  simp only [verifyContents, hbody, mapErr, result_ok_bind, hmissing]

end VaultStore

end HearthVault
