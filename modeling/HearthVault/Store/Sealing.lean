/-
HearthVault.Store.Sealing — the key hierarchy of an open vault: how the
bytes of a file become a `VaultStore`, and a `VaultStore` the next file.

One random data key encrypts the body. The passphrase and the recovery
phrase each wrap that data key under a key of their own, in a slot with its
own associated data. The three ways of opening (`loadV2Contents`,
`openMnemonicContents`, `openWrapKeyContents`) differ in how they come to
the wrapping key and share the rest, `unwrapKey` and `VaultStore.ofFile`.
No function here touches a file; the programs are in `Store.VaultStore`.
-/
import HearthVault.Store.Entries

namespace HearthVault

open Files Symbolic Calendar

/-! ## Slots and ciphertexts -/

def aadWrapPassphrase : Str := "hv2:wrap:passphrase".toList

def aadWrapRecovery : Str := "hv2:wrap:recovery".toList

def aadVault : Str := "hv2:vault".toList

/-- `B64.encode(encrypt_aes256gcm(..))`. -/
def sealed (key : Key) (nonce : Nat) (aad : Str) (plaintext : Plaintext) : B64 Ciphertext :=
  .encoded ⟨key, nonce, aad, plaintext⟩

/-- `decode_salt`. -/
def decodeSalt (salt : B64 Octets) : Result Octets := do
  let bytes ← salt.decode "salt encoding"
  if bytes.len ≠ 32 then bail s!"expected a 32-byte key, got {bytes.len} bytes"
  else .ok bytes

/-- `to_key`. -/
def toKey : Plaintext → Result Key
  | .key k => .ok k
  | _ => bail "expected a 32-byte key"

/-- `decrypt_body`. -/
def decryptBody (dataKey : Key) (vault : B64 Ciphertext) : Result VaultBody := do
  let blob ← vault.decode "vault encoding"
  match blob.decrypt dataKey aadVault with
  | none => bail "vault body decryption failed — corrupted file"
  | some (.body body) => .ok body
  | some _ => bail "corrupt vault body"

/-- Open the slot of a wrapped data key. -/
def unwrapKey (wrapKey : Key) (slot : WrapEntry) (aad : Str) (failure : String) : Result Key := do
  let blob ← slot.blob.decode "wrap encoding"
  match blob.decrypt wrapKey aad with
  | none => bail failure
  | some plaintext => toKey plaintext

/-- The wrapping key of a slot, from the secret it belongs to. -/
def slotKey (secret : Str) (slot : WrapEntry) (kdf : KdfParams) : Result Key := do
  let salt ← decodeSalt slot.salt
  mapErr ("key derivation failed: " ++ ·) (deriveKeyArgon2id secret salt kdf)

/-- `serde_json::from_str::<VaultFileV2>` and the check of the version. -/
def parseV2 (contents : Contents) : Result VaultFileV2 :=
  match contents with
  | .v2 file =>
    if file.version ≠ 2 then bail s!"unsupported vault format version {file.version}"
    else .ok file
  | _ => bail "corrupt vault file"

/-- `probe.get("version").is_some()`. -/
def hasVersion (contents : Contents) : Result Bool :=
  match contents with
  | .v1 _ _ => .ok false
  | .v2 _ | .bundle _ => .ok true
  | .json versioned _ => .ok versioned
  | .text _ | .binary _ => bail "corrupt vault file"

/-- The `bip39` crate: phrases with a checksum, and their texts. A printed
phrase parses back. -/
class Bip39 where
  Mnemonic : Type
  parseNormalized : Str → Option Mnemonic
  print : Mnemonic → Str
  fromEntropy : Octets → Mnemonic
  parse_print : ∀ phrase, parseNormalized (Str.trim (print phrase)) = some phrase

/-- A list of words with one phrase. -/
@[reducible]
def onePhrase : Bip39 where
  Mnemonic := Unit
  parseNormalized text := if text = "zoo".toList then some () else none
  print _ := "zoo".toList
  fromEntropy _ := ()
  parse_print _ := if_pos (by decide)

/-- The phrase of a typed mnemonic, after its checksum is validated. -/
def readMnemonic [Bip39] (mnemonic : Str) : Result Str :=
  match Bip39.parseNormalized (Str.trim mnemonic) with
  | some phrase => .ok (Bip39.print phrase)
  | none => bail "invalid recovery phrase"

/-! ## An open vault -/

/-- `VaultStore`. `lock` tells whether the store holds the vault lock;
`loadedFp` is the digest of the file it was last read from or written to. -/
structure VaultStore where
  path : Path
  kdf : KdfParams
  wrapPassphrase : WrapEntry
  wrapRecovery : Option WrapEntry
  dataKey : Key
  body : VaultBody
  lock : Bool
  loadedFp : Option (Digest Contents)
  deriving DecidableEq

namespace VaultStore

/-- The store of a file that was read and opened. -/
def ofFile (path : Path) (contents : Contents) (file : VaultFileV2) (dataKey : Key) :
    Result VaultStore := do
  let body ← decryptBody dataKey file.vault
  .ok { path, kdf := file.kdf, wrapPassphrase := file.wrap.passphrase,
        wrapRecovery := file.wrap.recovery, dataKey, body, lock := false,
        loadedFp := some ⟨contents⟩ }

/-- `load_v2`, of the contents read. -/
def loadV2Contents (path : Path) (passphrase : Str) (contents : Contents) : Result VaultStore := do
  let file ← parseV2 contents
  let passKey ← slotKey passphrase file.wrap.passphrase file.kdf
  let dataKey ← unwrapKey passKey file.wrap.passphrase aadWrapPassphrase
    "wrong passphrase — decryption failed"
  ofFile path contents file dataKey

/-- `open_at_with_mnemonic`, of the phrase and the contents read. -/
def openMnemonicContents (path : Path) (phrase : Str) (contents : Contents) :
    Result VaultStore := do
  let file ← parseV2 contents
  match file.wrap.recovery with
  | none => bail "no recovery key configured — run `hearth-vault new-recovery-key`"
  | some slot =>
    let recKey ← slotKey phrase slot file.kdf
    let dataKey ← unwrapKey recKey slot aadWrapRecovery
      "invalid recovery phrase — decryption failed"
    ofFile path contents file dataKey

/-- `open_at_with_wrap_key`, of the contents read. -/
def openWrapKeyContents (path : Path) (wrapKey : Key) (contents : Contents) :
    Result VaultStore := do
  let file ← parseV2 contents
  let dataKey ← unwrapKey wrapKey file.wrap.passphrase aadWrapPassphrase
    "cached key does not open this vault"
  ofFile path contents file dataKey

/-- `derive_wrap_key`, of the contents read. -/
def deriveWrapKeyContents (passphrase : Str) (contents : Contents) : Result Key := do
  let file ← parseV2 contents
  slotKey passphrase file.wrap.passphrase file.kdf

/-- `lock_and_refresh`, of the contents read under the lock. -/
def refresh (store : VaultStore) (contents : Contents) : Result VaultStore := do
  let file ← parseV2 contents
  let body ← mapErr (fun _ => "vault file was replaced since it was opened")
    (decryptBody store.dataKey file.vault)
  .ok { store with
        body, kdf := file.kdf, wrapPassphrase := file.wrap.passphrase,
        wrapRecovery := file.wrap.recovery, lock := true, loadedFp := some ⟨contents⟩ }

/-- The file `save` writes. -/
def toFile (store : VaultStore) (nonce : Nat) : VaultFileV2 where
  version := 2
  kdf := store.kdf
  wrap := ⟨store.wrapPassphrase, store.wrapRecovery⟩
  vault := sealed store.dataKey nonce aadVault (.body store.body)

/-- The check of `save` that the file is still the one that was loaded. -/
def unchanged (store : VaultStore) (onDisk : Option Contents) : Bool :=
  match store.loadedFp with
  | none => true
  | some expected => onDisk.map Digest.mk == some expected

/-- `verify_persisted`, of the contents read back. -/
def verifyContents (store : VaultStore) (expected : List (Str × Str)) (contents : Contents) :
    Result Unit := do
  -- No check of the version here.
  let file ← match contents with
    | .v2 file => .ok file
    | _ => bail "verification: corrupt vault file"
  let body ← mapErr (fun _ => "verification: stored vault does not decrypt")
    (decryptBody store.dataKey file.vault)
  let missing := expected.filter fun (key, value) => body.value? key ≠ some value
  if missing = [] then .ok ()
  else bail ("verification failed: not stored in the vault file: " ++
    String.ofList (Str.join ", ".toList (missing.map Prod.fst)))

/-- A mutation of the body. -/
def onBody (store : VaultStore) (f : VaultBody → Result VaultBody) : Result VaultStore := do
  let body ← f store.body
  .ok { store with body }

/-- The slot `change_passphrase` and creation make. -/
def wrapSlot (secret : Str) (salt nonce : Nat) (aad : Str) (kdf : KdfParams) (dataKey : Key) :
    Result WrapEntry := do
  let key ← mapErr ("key derivation failed: " ++ ·)
    (deriveKeyArgon2id secret (Octets.random32 salt) kdf)
  .ok ⟨.encoded (Octets.random32 salt), sealed key nonce aad (.key dataKey)⟩

/-- `change_passphrase`, of the salt and the nonce drawn. -/
def rewrapPassphrase (store : VaultStore) (newPassphrase : Str) (salt nonce : Nat) :
    Result VaultStore := do
  let slot ← wrapSlot newPassphrase salt nonce aadWrapPassphrase store.kdf store.dataKey
  .ok { store with wrapPassphrase := slot }

/-- `generate_recovery_key`, of the phrase, the salt and the nonce drawn. -/
def rewrapRecovery (store : VaultStore) (phrase : Str) (salt nonce : Nat) :
    Result VaultStore := do
  let slot ← wrapSlot phrase salt nonce aadWrapRecovery store.kdf store.dataKey
  .ok { store with wrapRecovery := some slot }

/-- The store `create_new` saves. -/
def fresh (path : Path) (passphrase : Str) (key salt nonce : Nat) : Result VaultStore := do
  let slot ← wrapSlot passphrase salt nonce aadWrapPassphrase .default (.random key)
  .ok { path, kdf := .default, wrapPassphrase := slot, wrapRecovery := none,
        dataKey := .random key, body := ∅, lock := true, loadedFp := none }

end VaultStore

end HearthVault
