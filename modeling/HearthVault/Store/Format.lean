/-
HearthVault.Store.Format — what the vault puts on disk.

The records follow `store.rs` (format v2, and format v1 for migration) and
`share.rs` (bundles). JSON text is represented by the record it spells:
`Contents` is the bytes of a file, by what `serde_json` makes of them. Only
the layout of the JSON that `serde_json` prints is left to a parameter,
`JsonText`.
-/
import HearthVault.Crypto.Primitives
import Mathlib.Data.Sym.Sym2
import Std.Data.ExtTreeMap

namespace HearthVault

open Files Symbolic

/-! ## The vault body -/

/-- `BodyEntry`. -/
structure BodyEntry where
  value : Str
  tier : UInt8
  createdAt : Str
  updatedAt : Str
  rotateDays : Option UInt32
  expiresAt : Option Str
  deriving DecidableEq, Repr

/-- `VaultBody.entries`: the entries by key name. -/
abbrev VaultBody := Std.ExtTreeMap Str BodyEntry compare

/-- What the vault encrypts: a key being wrapped, the JSON of the body, or
the value of a v1 entry, which need not be UTF-8. -/
inductive Plaintext where
  | key (k : Key)
  | body (b : VaultBody)
  | utf8 (s : Str)
  | binary
  deriving DecidableEq

/-- An AES-256-GCM ciphertext of the vault. -/
abbrev Ciphertext := Sealed Key Plaintext

/-! ## Format v2 -/

/-- `WrapEntry`: the Argon2id salt and the encrypted data key. -/
structure WrapEntry where
  salt : B64 Octets
  blob : B64 Ciphertext
  deriving DecidableEq

/-- `WrapSection`. -/
structure WrapSection where
  passphrase : WrapEntry
  recovery : Option WrapEntry
  deriving DecidableEq

/-- `VaultFileV2`. -/
structure VaultFileV2 where
  version : UInt8
  kdf : KdfParams
  wrap : WrapSection
  vault : B64 Ciphertext
  deriving DecidableEq

/-! ## Format v1 -/

/-- `EncryptedEntryV1`. -/
structure EncryptedEntryV1 where
  ciphertext : B64 Ciphertext
  tier : UInt8
  createdAt : Str
  updatedAt : Str
  deriving DecidableEq

/-- `VaultFileV1`. -/
structure VaultFileV1 where
  salt : B64 Octets
  recoveryKeyEncrypted : Option Str
  entries : Std.ExtTreeMap Str EncryptedEntryV1 compare
  deriving DecidableEq

/-! ## Bundles -/

/-- An X25519 public key, by its secret. -/
structure PublicKey where
  secret : Key
  deriving DecidableEq

/-- A pasted identity string: what `parse_identity` makes of it. -/
inductive Identity where
  | publicKey (pk : PublicKey)
  | noPrefix (text : Str)
  | badBase64 (text : Str)
  | badLength (text : Str)
  deriving DecidableEq

/-- `SharedEntry`, and `OpenedEntry` on the receiving side. -/
structure SharedEntry where
  key : Str
  value : Str
  tier : UInt8
  deriving DecidableEq, Repr

/-- `Payload`. -/
structure Payload where
  entries : List SharedEntry
  note : Option Str
  deriving DecidableEq, Repr

/-- The key of a bundle: HKDF of the X25519 secret of two parties, salted
with both public keys. -/
structure BundleKey where
  shared : Sym2 Key
  epk : PublicKey
  recipient : PublicKey
  deriving DecidableEq

/-- `Bundle`; `epk` and `recipient` are its `epk` and `to`. A decoded `epk`
of another length than 32 bytes is `none`. -/
structure Bundle where
  version : UInt8
  epk : B64 (Option PublicKey)
  recipient : Digest Identity
  blob : B64 (Sealed BundleKey Payload)
  deriving DecidableEq

/-! ## Files -/

/-- The bytes of a file: a v1 vault, a v2 vault, a bundle, other JSON with or
without a `version`, other text, or no text at all. -/
inductive Contents where
  | v1 (text : Str) (file : VaultFileV1)
  | v2 (file : VaultFileV2)
  | bundle (b : Bundle)
  | json (versioned : Bool) (s : Str)
  | text (s : Str)
  | binary (bytes : List UInt8)
  deriving DecidableEq

/-- An incomplete JSON document is no JSON document. -/
instance : Torn Contents := ⟨Contents.text⟩

/-- The text `serde_json::to_string_pretty` prints. -/
class JsonText where
  vault : VaultFileV2 → Str
  bundle : Bundle → Str

/-- The text of a file: `String::from_utf8`. -/
def Contents.asText [JsonText] : Contents → Result Str
  | .v1 s _ | .json _ s | .text s => .ok s
  | .v2 file => .ok (JsonText.vault file)
  | .bundle b => .ok (JsonText.bundle b)
  | .binary _ => bail "stream did not contain valid UTF-8"

/-- The bytes of a file. -/
def Contents.bytes [JsonText] : Contents → List UInt8
  | .v1 s _ | .json _ s | .text s => s.utf8
  | .v2 file => (JsonText.vault file).utf8
  | .bundle b => (JsonText.bundle b).utf8
  | .binary bytes => bytes

/-- A program of the vault. -/
abbrev Prog := Fx Contents

/-- The files of a machine. -/
abbrev Disk := World Contents

def vaultJson : Path :=
  ⟨"d".toList, "vault.json".toList⟩

/-- A disk without files. -/
def blankDisk : Disk :=
  ⟨fun _ => none, 0, 0, fun _ => 0⟩

end HearthVault
