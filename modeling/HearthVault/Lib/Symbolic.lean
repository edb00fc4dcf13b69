/-
HearthVault.Lib.Symbolic — authenticated encryption and hashing as terms.

A ciphertext is the term `Sealed` of everything that went into it, so that
decryption succeeds exactly with the key and the associated data of the
encryption, and two encryptions under different nonces are different
ciphertexts. A hash is the term `Digest` of its input, so that different
inputs have different hashes.
-/
import HearthVault.Lib.Text

namespace HearthVault.Symbolic

variable {κ α : Type}

/-- An AEAD ciphertext. -/
structure Sealed (κ α : Type) where
  key : κ
  nonce : Nat
  aad : Str
  plaintext : α
  deriving DecidableEq, Repr

/-- AEAD decryption. -/
def Sealed.decrypt [DecidableEq κ] (c : Sealed κ α) (key : κ) (aad : Str) : Option α :=
  if c.key = key ∧ c.aad = aad then some c.plaintext else none

@[simp] theorem Sealed.decrypt_mk [DecidableEq κ] (key : κ) (nonce : Nat) (aad : Str) (a : α) :
    Sealed.decrypt ⟨key, nonce, aad, a⟩ key aad = some a := by
  simp [Sealed.decrypt]

/-- A collision-free hash. -/
structure Digest (α : Type) where
  preimage : α
  deriving DecidableEq, Repr

end HearthVault.Symbolic
