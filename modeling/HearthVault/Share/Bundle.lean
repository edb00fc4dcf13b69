/-
HearthVault.Share.Bundle — sealing entries to a teammate and opening what
was sealed (`share.rs`).

`shareEntries` is the plaintext of a bundle: no tier-4 entry is in it, and a
tier is only ever raised. `sealBundle` encrypts it to a recipient under an
ephemeral key, `openBundle` decrypts it with the receiving vault's identity.
-/
import HearthVault.Store.Entries

namespace HearthVault

open Files Symbolic

/-- `public_identity`. -/
def publicIdentity (seed : Key) : Identity :=
  .publicKey ⟨seed⟩

/-- `parse_identity`. -/
def parseIdentity : Identity → Result PublicKey
  | .publicKey pk => .ok pk
  | .noPrefix _ => bail "not a hearth-vault identity (expected it to start with 'hv1pub')"
  | .badBase64 _ => bail "malformed identity"
  | .badLength _ => bail "malformed identity: wrong key length"

def shareAad : Str := "hv1:share:v1".toList

/-- `bundle_key`. -/
def bundleKey (shared : Sym2 Key) (epk recipient : PublicKey) : BundleKey :=
  ⟨shared, epk, recipient⟩

/-- The entries of a payload. -/
def shareEntries (entries : List (Str × Str × UInt8)) (maxTier : Option UInt8) :
    List SharedEntry :=
  (entries.filter fun (_, _, tier) => tier ≠ tierSignOnly).map fun (key, value, tier) =>
    ⟨key, value, match maxTier with | none => tier | some cap => max tier cap⟩

/-- The plaintext `seal` encrypts. -/
def sharePayload (entries : List (Str × Str × UInt8)) (recipient : Identity)
    (maxTier : Option UInt8) (note : Option Str) : Result (PublicKey × Payload) := do
  let pk ← parseIdentity recipient
  if maxTier.any fun cap => cap = 0 ∨ cap > tierMax then
    bail s!"invalid --max-tier {maxTier.getD 0} — must be 1..={tierMax}"
  else
    let shared := shareEntries entries maxTier
    if shared = [] then
      bail (s!"nothing to share — no entries matched, or every match was tier {tierSignOnly} " ++
        "(sign-only keys are never shareable: that tier means the key material does not " ++
        "leave the process that holds it)")
    else .ok (pk, ⟨shared, note⟩)

/-- The bundle of a payload, of the ephemeral secret and the nonce drawn. -/
def sealBundle (recipient : PublicKey) (payload : Payload) (esk nonce : Nat) : Bundle :=
  let epk : PublicKey := ⟨.random esk⟩
  { version := 1
    epk := .encoded (some epk)
    recipient := ⟨.publicKey recipient⟩
    blob := .encoded
      ⟨bundleKey s(.random esk, recipient.secret) epk recipient, nonce, shareAad, payload⟩ }

/-- `seal`, of the ephemeral secret and the nonce drawn. -/
def shareSeal (entries : List (Str × Str × UInt8)) (recipient : Identity) (maxTier : Option UInt8)
    (note : Option Str) (esk nonce : Nat) : Result Bundle := do
  let (recipient, payload) ← sharePayload entries recipient maxTier note
  .ok (sealBundle recipient payload esk nonce)

/-- `fingerprint`. -/
def fingerprint (identity : Identity) : Digest Identity :=
  ⟨identity⟩

/-- `open`. -/
def openBundle (bundle : Bundle) (seed : Key) : Result Payload := do
  if bundle.version ≠ 1 then bail s!"unsupported bundle version {bundle.version}"
  else if bundle.recipient ≠ ⟨publicIdentity seed⟩ then
    bail (α := Payload) ("this bundle is addressed to another vault identity — ask the sender " ++
      "to re-share to your identity (`hearth-vault identity`)")
  else
    let epk ← match ← bundle.epk.decode "bundle" with
      | some epk => .ok epk
      | none => bail "malformed bundle: bad ephemeral key length"
    let blob ← bundle.blob.decode "bundle"
    match blob.decrypt (bundleKey s(seed, epk.secret) epk ⟨seed⟩) shareAad with
    | some payload => .ok payload
    | none => bail "bundle failed to decrypt — wrong recipient, or tampered"

/-- A sealed bundle opens for its recipient, with what was sealed. -/
theorem openBundle_sealBundle (seed : Key) (payload : Payload) (esk nonce : Nat) :
    openBundle (sealBundle ⟨seed⟩ payload esk nonce) seed = .ok payload := by
  simp [openBundle, sealBundle, publicIdentity, bundleKey, Sym2.eq_swap]

end HearthVault
