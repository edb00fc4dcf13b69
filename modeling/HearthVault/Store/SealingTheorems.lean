/-
HearthVault.Store.SealingTheorems — what opens a vault file.

`Wraps` says that a slot holds the data key under a secret, `Holds` that a
file is a complete v2 vault with given secrets and body. Both describe what
is in a file without any function that opens it, and `Holds.load_iff`,
`Holds.mnemonic_iff` and `Holds.wrapKey_iff` say what opens it: exactly the
secret of the slot, and then with the data key and the body it was sealed
with.
-/
import HearthVault.Store.Sealing

namespace HearthVault

open Files Symbolic

/-! ## Slots -/

/-- The slot wraps the data key under a secret, with a random salt. -/
def Wraps (slot : WrapEntry) (secret aad : Str) (kdf : KdfParams) (dataKey : Key) : Prop :=
  ∃ salt nonce, slot = ⟨.encoded (Octets.random32 salt),
    sealed (.argon2id secret (Octets.random32 salt) kdf) nonce aad (.key dataKey)⟩

theorem decodeSalt_random32 (n : Nat) :
    decodeSalt (.encoded (Octets.random32 n)) = .ok (Octets.random32 n) := rfl

theorem VaultStore.wrapSlot_eq_ok {secret aad : Str} {salt nonce : Nat} {kdf : KdfParams}
    {dataKey : Key} {slot : WrapEntry} :
    wrapSlot secret salt nonce aad kdf dataKey = .ok slot ↔ kdf.validate = .ok () ∧
      slot = ⟨.encoded (Octets.random32 salt),
        sealed (.argon2id secret (Octets.random32 salt) kdf) nonce aad (.key dataKey)⟩ := by
  simp only [wrapSlot, result_bind_eq_ok, mapErr_eq_ok, deriveKeyArgon2id_eq_ok]
  constructor
  · rintro ⟨key, ⟨hkdf, rfl⟩, h⟩
    cases h
    exact ⟨hkdf, rfl⟩
  · rintro ⟨hkdf, rfl⟩
    exact ⟨_, ⟨hkdf, rfl⟩, rfl⟩

theorem VaultStore.wrapSlot_wraps {secret aad : Str} {salt nonce : Nat} {kdf : KdfParams}
    {dataKey : Key} {slot : WrapEntry}
    (h : wrapSlot secret salt nonce aad kdf dataKey = .ok slot) :
    Wraps slot secret aad kdf dataKey :=
  ⟨salt, nonce, (wrapSlot_eq_ok.mp h).2⟩

theorem slotKey_eq_ok {secret : Str} {salt : Nat} {blob : B64 Ciphertext} {kdf : KdfParams}
    {key : Key} : slotKey secret ⟨.encoded (Octets.random32 salt), blob⟩ kdf = .ok key ↔
      kdf.validate = .ok () ∧ key = .argon2id secret (Octets.random32 salt) kdf := by
  simp [slotKey, decodeSalt_random32, mapErr_eq_ok, deriveKeyArgon2id_eq_ok]

theorem unwrapKey_eq_ok {wrapKey key dataKey k : Key} {salt : B64 Octets} {nonce : Nat}
    {aad : Str} {failure : String} :
    unwrapKey wrapKey ⟨salt, sealed key nonce aad (.key dataKey)⟩ aad failure = .ok k ↔
      wrapKey = key ∧ k = dataKey := by
  by_cases hkey : key = wrapKey
  · simp [unwrapKey, sealed, Sealed.decrypt, toKey, hkey, eq_comm (a := k)]
  · simp [unwrapKey, sealed, Sealed.decrypt, bail, hkey, Ne.symm hkey]

theorem decryptBody_sealed {dataKey : Key} {nonce : Nat} {body : VaultBody} :
    decryptBody dataKey (sealed dataKey nonce aadVault (.body body)) = .ok body := by
  simp [decryptBody, sealed]

/-! ## Files -/

theorem parseV2_eq_ok {contents : Contents} {file : VaultFileV2}
    (h : parseV2 contents = .ok file) : contents = .v2 file := by
  unfold parseV2 at h
  split at h
  · split at h
    · simp [bail] at h
    · cases h
      rfl
  · simp [bail] at h

/-- The file is a complete v2 vault: its slots hold the data key under the
passphrase and the recovery phrase, and its body is sealed by the data key. -/
structure Holds (file : VaultFileV2) (passphrase : Str) (phrase : Option Str) (dataKey : Key)
    (body : VaultBody) : Prop where
  version : file.version = 2
  kdf : file.kdf.validate = .ok ()
  passphrase : Wraps file.wrap.passphrase passphrase aadWrapPassphrase file.kdf dataKey
  recovery : Option.Rel (fun slot phrase => Wraps slot phrase aadWrapRecovery file.kdf dataKey)
    file.wrap.recovery phrase
  vault : ∃ nonce, file.vault = sealed dataKey nonce aadVault (.body body)

/-- The store of an opened file. -/
def VaultStore.opened (path : Path) (file : VaultFileV2) (dataKey : Key) (body : VaultBody) :
    VaultStore :=
  { path, kdf := file.kdf, wrapPassphrase := file.wrap.passphrase,
    wrapRecovery := file.wrap.recovery, dataKey, body, lock := false,
    loadedFp := some ⟨.v2 file⟩ }

namespace Holds

variable {file : VaultFileV2} {passphrase : Str} {phrase : Option Str} {dataKey : Key}
  {body : VaultBody} (h : Holds file passphrase phrase dataKey body) (path : Path)

include h

theorem parseV2 : HearthVault.parseV2 (.v2 file) = .ok file := by
  simp [HearthVault.parseV2, h.version]

theorem ofFile : VaultStore.ofFile path (.v2 file) file dataKey =
    .ok (.opened path file dataKey body) := by
  obtain ⟨nonce, hvault⟩ := h.vault
  simp [VaultStore.ofFile, hvault, decryptBody_sealed, VaultStore.opened]

/-- The vault opens with its passphrase only. -/
theorem load_iff (p : Str) (store : VaultStore) :
    VaultStore.loadV2Contents path p (.v2 file) = .ok store ↔
      p = passphrase ∧ store = .opened path file dataKey body := by
  obtain ⟨salt, nonce, hslot⟩ := h.passphrase
  simp only [VaultStore.loadV2Contents, result_bind_eq_ok, h.parseV2, Except.ok.injEq,
    exists_eq_left', hslot, slotKey_eq_ok, unwrapKey_eq_ok]
  constructor
  · rintro ⟨_, ⟨_, rfl⟩, _, ⟨hkey, rfl⟩, hfile⟩
    rw [h.ofFile path] at hfile
    cases hkey
    cases hfile
    exact ⟨rfl, rfl⟩
  · rintro ⟨rfl, rfl⟩
    exact ⟨_, ⟨h.kdf, rfl⟩, _, ⟨rfl, rfl⟩, h.ofFile path⟩

/-- The vault opens with its recovery phrase only. -/
theorem mnemonic_iff (s : Str) (store : VaultStore) :
    VaultStore.openMnemonicContents path s (.v2 file) = .ok store ↔
      phrase = some s ∧ store = .opened path file dataKey body := by
  have hrec := h.recovery
  cases hslot : file.wrap.recovery with
  | none =>
    rw [hslot] at hrec
    cases hrec
    simp [VaultStore.openMnemonicContents, h.parseV2, hslot, bail]
  | some slot =>
    rw [hslot] at hrec
    obtain ⟨salt, nonce, rfl⟩ | _ := hrec
    rename_i r
    simp only [VaultStore.openMnemonicContents, result_bind_eq_ok, h.parseV2, Except.ok.injEq,
      exists_eq_left', hslot, slotKey_eq_ok, unwrapKey_eq_ok]
    constructor
    · rintro ⟨_, ⟨_, rfl⟩, _, ⟨hkey, rfl⟩, hfile⟩
      rw [h.ofFile path] at hfile
      cases hkey
      cases hfile
      exact ⟨rfl, rfl⟩
    · rintro ⟨⟨⟩, rfl⟩
      exact ⟨_, ⟨h.kdf, rfl⟩, _, ⟨rfl, rfl⟩, h.ofFile path⟩

/-- The vault opens with the wrap key derived from its passphrase under its
salt only. -/
theorem wrapKey_iff (key : Key) (store : VaultStore) :
    VaultStore.openWrapKeyContents path key (.v2 file) = .ok store ↔
      VaultStore.deriveWrapKeyContents passphrase (.v2 file) = .ok key ∧
        store = .opened path file dataKey body := by
  obtain ⟨salt, nonce, hslot⟩ := h.passphrase
  simp only [VaultStore.openWrapKeyContents, VaultStore.deriveWrapKeyContents, result_bind_eq_ok,
    h.parseV2, Except.ok.injEq, exists_eq_left', hslot, slotKey_eq_ok, unwrapKey_eq_ok]
  constructor
  · rintro ⟨_, ⟨rfl, rfl⟩, hfile⟩
    rw [h.ofFile path] at hfile
    cases hfile
    exact ⟨⟨h.kdf, rfl⟩, rfl⟩
  · rintro ⟨⟨_, rfl⟩, rfl⟩
    exact ⟨_, ⟨rfl, rfl⟩, h.ofFile path⟩

/-- A passphrase derives the wrap key that opens the vault only if it is its
passphrase. -/
theorem deriveWrapKey_iff (p : Str) (key : Key) :
    VaultStore.deriveWrapKeyContents p (.v2 file) = .ok key ↔
      ∃ salt, file.wrap.passphrase.salt = .encoded (Octets.random32 salt) ∧
        key = .argon2id p (Octets.random32 salt) file.kdf := by
  obtain ⟨salt, nonce, hslot⟩ := h.passphrase
  simp only [VaultStore.deriveWrapKeyContents, result_bind_eq_ok, h.parseV2, Except.ok.injEq,
    exists_eq_left', hslot, slotKey_eq_ok]
  constructor
  · rintro ⟨_, rfl⟩
    exact ⟨salt, rfl, rfl⟩
  · rintro ⟨salt', hsalt, rfl⟩
    cases hsalt
    exact ⟨h.kdf, rfl⟩

/-- A store refreshes to what the file holds, if it holds the data key. -/
theorem refresh_iff (store store' : VaultStore) : store.refresh (.v2 file) = .ok store' ↔
    store.dataKey = dataKey ∧
      store' = { VaultStore.opened store.path file dataKey body with lock := true } := by
  obtain ⟨nonce, hvault⟩ := h.vault
  by_cases hkey : store.dataKey = dataKey
  · simp [VaultStore.refresh, h.parseV2, hvault, hkey, decryptBody_sealed, VaultStore.opened,
      mapErr, eq_comm (a := store')]
  · simp [VaultStore.refresh, h.parseV2, hvault, hkey, decryptBody, sealed, Sealed.decrypt,
      Ne.symm hkey, bail, mapErr]

end Holds

/-- The file a store saves, when its slots wrap its data key. -/
theorem VaultStore.toFile_holds {store : VaultStore} {passphrase : Str} {phrase : Option Str}
    (hkdf : store.kdf.validate = .ok ())
    (hpass : Wraps store.wrapPassphrase passphrase aadWrapPassphrase store.kdf store.dataKey)
    (hrec : Option.Rel
      (fun slot phrase => Wraps slot phrase aadWrapRecovery store.kdf store.dataKey)
      store.wrapRecovery phrase) (nonce : Nat) :
    Holds (store.toFile nonce) passphrase phrase store.dataKey store.body :=
  ⟨rfl, hkdf, hpass, hrec, nonce, rfl⟩

end HearthVault
