/-
HearthVault.Store.Migrate — `migrate_v1_to_v2`.

The conversion itself, `convertV1`, is a function of the v1 file and the
passphrase: every entry is decoded, decrypted under the one v1 key and put
into a v2 body with its tier and timestamps. Around it `migrateV1ToV2` reads
the file, writes the backup and then the v2 file, both with `fs::write`.
-/
import HearthVault.Platform
import HearthVault.Store.Sealing

namespace HearthVault

open Files Symbolic

/-- `V1_KDF`. -/
def v1Kdf : KdfParams :=
  ⟨65536, 3, 4⟩

/-- `backup_path_for`. -/
def backupPathFor (path : Path) : Path :=
  path.withFileName (path.name ++ ".v1.bak".toList)

theorem backupPathFor_ne (path : Path) : backupPathFor path ≠ path := by
  intro h
  have hlen := congrArg (fun p => p.name.length) h
  simp [backupPathFor, Path.withFileName] at hlen

/-- `serde_json::from_str::<VaultFileV1>`. -/
def parseV1 (contents : Contents) : Result VaultFileV1 :=
  match contents with
  | .v1 _ file => .ok file
  | _ => bail "corrupt v1 vault file"

/-- The key of every v1 entry. -/
def v1EntryKey (file : VaultFileV1) (passphrase : Str) : Result Key := do
  let salt ← decodeSalt file.salt
  let master ← mapErr ("key derivation failed: " ++ ·) (deriveKeyArgon2id passphrase salt v1Kdf)
  .ok (deriveSubkey master "vault-credentials".toList)

/-- One entry of the migration loop: decode, decrypt without associated
data, read as UTF-8. The tier is copied as it stands. -/
def migrateEntry (key : Key) (name : Str) (entry : EncryptedEntryV1) : Result BodyEntry := do
  let ciphertext ← entry.ciphertext.decode s!"ciphertext for '{String.ofList name}'"
  match ciphertext.decrypt key [] with
  | none =>
    bail s!"wrong passphrase — failed to decrypt entry '{String.ofList name}' during migration"
  | some (.utf8 value) =>
    .ok { value, tier := entry.tier, createdAt := entry.createdAt, updatedAt := entry.updatedAt,
          rotateDays := none, expiresAt := none }
  | some _ => bail s!"entry '{String.ofList name}' is not valid UTF-8"

/-- The migration loop. -/
def migrateEntries (key : Key) (body : VaultBody) :
    List (Str × EncryptedEntryV1) → Result VaultBody
  | [] => .ok body
  | (name, entry) :: rest => do
    let migrated ← migrateEntry key name entry
    migrateEntries key (body.insert name migrated) rest

/-- The v2 body of a v1 file. -/
def convertV1 (file : VaultFileV1) (passphrase : Str) : Result VaultBody := do
  let key ← v1EntryKey file passphrase
  migrateEntries key ∅ file.entries.toList

/-- The v2 file of a migrated body, of the random values drawn. -/
def migratedFile (passphrase : Str) (body : VaultBody) (key salt nonce nonce' : Nat) :
    Result VaultFileV2 := do
  let slot ← VaultStore.wrapSlot passphrase salt nonce aadWrapPassphrase .default (.random key)
  .ok { version := 2, kdf := .default, wrap := ⟨slot, none⟩,
        vault := sealed (.random key) nonce' aadVault (.body body) }

/-- The first half of `migrate_v1_to_v2`: read and convert, then back up. -/
def backupV1 (path : Path) (passphrase : Str) : Prog VaultBody := do
  let contents ← readToString path
  let v1 ← Fx.ofResult (parseV1 contents)
  let body ← Fx.ofResult (convertV1 v1 passphrase)
  Fx.write (backupPathFor path) contents
  Fx.mapErr ("failed to restrict backup file permissions: " ++ ·)
    (restrictToOwner (backupPathFor path))
  pure body

/-- The second half: the v2 file, written in place. -/
def replaceV1 (path : Path) (passphrase : Str) (body : VaultBody) : Prog Unit := do
  let key ← Fx.random
  let salt ← Fx.random
  let nonce ← Fx.random
  let nonce' ← Fx.random
  let file ← Fx.ofResult (migratedFile passphrase body key salt nonce nonce')
  Fx.write path (.v2 file)
  Fx.mapErr ("failed to restrict vault file permissions: " ++ ·) (restrictToOwner path)

/-- `migrate_v1_to_v2`. -/
def migrateV1ToV2 (path : Path) (passphrase : Str) : Prog Unit := do
  let body ← backupV1 path passphrase
  replaceV1 path passphrase body

end HearthVault
