/-
HearthVault.Crypto.Primitives — the key material of the vault (`crypto.rs`)
in the symbolic reading of `Lib.Symbolic`.

A `Key` is the term of how it was made: drawn at random, derived from a
passphrase by Argon2id, or derived from another key by HKDF. Different
terms are different keys, which makes Argon2id injective in secret, salt
and parameters. `KdfParams.validate` guards every Argon2id derivation, since
the parameters come out of the vault file.
-/
import HearthVault.Lib.FileRules
import HearthVault.Lib.Symbolic

namespace HearthVault

open Files Symbolic

/-! ## Encodings -/

/-- A base64 field: the encoding of a value, or text that does not decode. -/
inductive B64 (α : Type) where
  | encoded (a : α)
  | malformed (text : Str)
  deriving DecidableEq, Repr

/-- `B64.decode(..)`. -/
def B64.decode {α : Type} (what : String) : B64 α → Result α
  | .encoded a => .ok a
  | .malformed _ => bail s!"invalid {what}"

@[simp] theorem B64.decode_encoded {α : Type} (what : String) (a : α) :
    (B64.encoded a).decode what = .ok a := rfl

/-- An opaque byte string: which one it is, and its length. -/
structure Octets where
  ident : Nat
  len : Nat
  deriving DecidableEq, Repr

/-- The random 32-byte string of a draw. -/
def Octets.random32 (n : Nat) : Octets :=
  ⟨n, 32⟩

/-! ## Key derivation -/

/-- `KdfParams`: Argon2id memory, iterations and lanes. -/
structure KdfParams where
  m : UInt32
  t : UInt32
  p : UInt32
  deriving DecidableEq, Repr

/-- `KdfParams::default`. -/
def KdfParams.default : KdfParams :=
  ⟨65536, 3, 4⟩

/-- `KdfParams::validate`. -/
def KdfParams.validate (k : KdfParams) : Result Unit :=
  if k.m < 8 ∨ k.m > 4 * 1024 * 1024 then
    bail s!"vault KDF memory parameter out of range: {k.m} KiB (accepted: 8..=4194304)"
  else if k.t = 0 ∨ k.t > 64 then
    bail s!"vault KDF iteration parameter out of range: {k.t} (accepted: 1..=64)"
  else if k.p = 0 ∨ k.p > 64 then
    bail s!"vault KDF parallelism parameter out of range: {k.p} (accepted: 1..=64)"
  else .ok ()

/-- A 256-bit key, by how it was made. -/
inductive Key where
  | random (n : Nat)
  | argon2id (secret : Str) (salt : Octets) (params : KdfParams)
  | subkey (master : Key) (context : Str)
  deriving DecidableEq, Repr

/-- `derive_key_argon2id`. -/
def deriveKeyArgon2id (secret : Str) (salt : Octets) (params : KdfParams) : Result Key := do
  params.validate
  pure (.argon2id secret salt params)

/-- `derive_subkey`: HKDF of a uniform key. A 32-byte output always fits. -/
def deriveSubkey (master : Key) (context : Str) : Key :=
  .subkey master context

theorem deriveKeyArgon2id_eq_ok {secret : Str} {salt : Octets} {params : KdfParams} {k : Key} :
    deriveKeyArgon2id secret salt params = .ok k ↔
      params.validate = .ok () ∧ k = .argon2id secret salt params := by
  unfold deriveKeyArgon2id
  cases params.validate with
  | error e => simp [bind, Except.bind]
  | ok u => simp [bind, Except.bind, pure, Except.pure, eq_comm]

@[simp] theorem KdfParams.default_validate : KdfParams.default.validate = .ok () := by
  simp [KdfParams.validate, KdfParams.default]

end HearthVault
