/-
HearthVault.Lib.Deduction — what an attacker works out of ciphertexts.

The attacker owns some keys and has seen some ciphertexts. It decrypts with
the keys it has, takes the keys that plaintexts hold, computes keys from keys
and encrypts for itself (`Deduces`). `Deduces.key_notMem` is the rule for what
it does not find out: a set of keys that nothing outside of it leads to stays
out of reach. What the attacker reads was under a key that it has
(`deduces_plaintext_iff`), so encrypting for itself gains it nothing.
-/
import HearthVault.Lib.Symbolic
import Mathlib.Data.Set.Basic

namespace HearthVault.Symbolic

variable {κ κ' α α' : Type}

/-- A ciphertext among those of a larger system. -/
def Sealed.map (f : κ → κ') (g : α → α') (c : Sealed κ α) : Sealed κ' α' :=
  ⟨f c.key, c.nonce, c.aad, g c.plaintext⟩

@[simp] theorem Sealed.map_key (f : κ → κ') (g : α → α') (c : Sealed κ α) :
    (c.map f g).key = f c.key := rfl

@[simp] theorem Sealed.map_plaintext (f : κ → κ') (g : α → α') (c : Sealed κ α) :
    (c.map f g).plaintext = g c.plaintext := rfl

/-- The keys that a plaintext holds, and the keys that are computed from a
key. -/
structure KeyFlow (κ α : Type) where
  holds : α → κ → Prop
  derives : κ → κ → Prop

inductive Fact (κ α : Type) where
  | key (k : κ)
  | plaintext (a : α)
  | ciphertext (c : Sealed κ α)

/-- What follows from the keys owned and the ciphertexts seen. -/
inductive Deduces (F : KeyFlow κ α) (owned : Set κ) (seen : Set (Sealed κ α)) :
    Fact κ α → Prop
  | own {k : κ} (h : k ∈ owned) : Deduces F owned seen (.key k)
  | see {c : Sealed κ α} (h : c ∈ seen) : Deduces F owned seen (.ciphertext c)
  | derive {k k' : κ} (h : Deduces F owned seen (.key k)) (hk : F.derives k k') :
    Deduces F owned seen (.key k')
  | decrypt {c : Sealed κ α} (h : Deduces F owned seen (.ciphertext c))
      (hk : Deduces F owned seen (.key c.key)) : Deduces F owned seen (.plaintext c.plaintext)
  | take {a : α} {k : κ} (h : Deduces F owned seen (.plaintext a)) (hk : F.holds a k) :
    Deduces F owned seen (.key k)
  | encrypt {k : κ} {a : α} (hk : Deduces F owned seen (.key k))
      (h : Deduces F owned seen (.plaintext a)) (nonce : Nat) (aad : Str) :
    Deduces F owned seen (.ciphertext ⟨k, nonce, aad, a⟩)

/-- The keys of `safe` are not owned, and only keys of `safe` lead to them. -/
structure Secures (F : KeyFlow κ α) (owned : Set κ) (seen : Set (Sealed κ α)) (safe : Set κ) :
    Prop where
  owned : ∀ k ∈ owned, k ∉ safe
  derives : ∀ k k', F.derives k k' → k' ∈ safe → k ∈ safe
  seen : ∀ c ∈ seen, ∀ k, F.holds c.plaintext k → k ∈ safe → c.key ∈ safe

variable {F : KeyFlow κ α} {owned owned' : Set κ} {seen seen' : Set (Sealed κ α)} {safe : Set κ}

/-- What is known while the keys of `safe` are not: other keys, and the
plaintexts of what was seen under other keys. -/
def Fact.Outside (seen : Set (Sealed κ α)) (safe : Set κ) : Fact κ α → Prop
  | .key k => k ∉ safe
  | .plaintext a => ∃ c ∈ seen, c.plaintext = a ∧ c.key ∉ safe
  | .ciphertext c =>
    c.key ∉ safe → ∃ c' ∈ seen, c'.plaintext = c.plaintext ∧ c'.key ∉ safe

theorem Deduces.outside (h : Secures F owned seen safe) {φ : Fact κ α}
    (hφ : Deduces F owned seen φ) : φ.Outside seen safe := by
  induction hφ with
  | own hk => exact h.owned _ hk
  | see hc => exact fun hkey => ⟨_, hc, rfl, hkey⟩
  | derive _ hk ih => exact fun hsafe => ih (h.derives _ _ hk hsafe)
  | decrypt _ _ ih ihk => exact ih ihk
  | take _ hk ih =>
    obtain ⟨c, hc, rfl, hkey⟩ := ih
    exact fun hsafe => hkey (h.seen c hc _ hk hsafe)
  | encrypt _ _ _ _ ihk ih => exact fun _ => ih

theorem Deduces.key_notMem (h : Secures F owned seen safe) {k : κ}
    (hk : Deduces F owned seen (.key k)) : k ∉ safe :=
  hk.outside h

/-- The keys that are not found out are safe. -/
theorem secures_unknown (F : KeyFlow κ α) (owned : Set κ) (seen : Set (Sealed κ α)) :
    Secures F owned seen {k | ¬Deduces F owned seen (.key k)} where
  owned _ hk hunknown := hunknown (.own hk)
  derives _ _ hk hunknown hknown := hunknown (hknown.derive hk)
  seen _ hc _ hk hunknown hknown := hunknown (((Deduces.see hc).decrypt hknown).take hk)

/-- What is read has been seen under a key that is known. -/
theorem deduces_plaintext_iff {a : α} : Deduces F owned seen (.plaintext a) ↔
    ∃ c ∈ seen, c.plaintext = a ∧ Deduces F owned seen (.key c.key) := by
  constructor
  · intro h
    obtain ⟨c, hc, ha, hkey⟩ := h.outside (secures_unknown F owned seen)
    exact ⟨c, hc, ha, by simpa using hkey⟩
  · intro h
    obtain ⟨c, hc, rfl, hkey⟩ := h
    exact (Deduces.see hc).decrypt hkey

/-- The key that a ciphertext holds, once its own key is known. -/
theorem Deduces.unwrap {c : Sealed κ α} (hc : c ∈ seen)
    (hkey : Deduces F owned seen (.key c.key)) {k : κ} (hk : F.holds c.plaintext k) :
    Deduces F owned seen (.key k) :=
  ((Deduces.see hc).decrypt hkey).take hk

end HearthVault.Symbolic
