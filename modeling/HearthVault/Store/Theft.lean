/-
HearthVault.Store.Theft — what a thief of vault files learns.

A `Thief` has some of the versions that a vault file ever had, bundles that
were sealed to the vault, strings to try as passphrases and wrap keys that an
agent held. Since saving keeps the data key, one version that a secret opens
gives away every version of its generation, older or newer
(`thief_reads_entries_iff`), and every bundle sealed to the vault in that
generation (`thief_reads_payload_iff`); nothing else gives away anything.
-/
import HearthVault.Lib.Deduction
import HearthVault.Share.Bundle
import HearthVault.Store.Versions

namespace HearthVault

open Files Symbolic

/-! ## Keys and ciphertexts -/

/-- A key of a vault or of a bundle. -/
abbrev Secret := Key ⊕ BundleKey

/-- What a vault or a bundle encrypts. -/
abbrev Message := Plaintext ⊕ Payload

/-- A slot holds the data key. Subkeys are computed from their master key, and
a bundle key from either party's secret, the public keys being public. -/
def keyFlow : KeyFlow Secret Message where
  holds message k := ∃ dataKey, message = .inl (.key dataKey) ∧ k = .inl dataKey
  derives k k' := ∃ key, k = .inl key ∧
    ((∃ context, k' = .inl (deriveSubkey key context)) ∨
      ∃ bk : BundleKey, key ∈ bk.shared ∧ k' = .inr bk)

/-- The ciphertexts in a file. -/
inductive Contents.Seals : Contents → Sealed Secret Message → Prop
  | passphrase {file : VaultFileV2} {c : Ciphertext}
      (h : file.wrap.passphrase.blob = .encoded c) : Seals (.v2 file) (c.map .inl .inl)
  | recovery {file : VaultFileV2} {slot : WrapEntry} {c : Ciphertext}
      (hslot : file.wrap.recovery = some slot) (h : slot.blob = .encoded c) :
    Seals (.v2 file) (c.map .inl .inl)
  | vault {file : VaultFileV2} {c : Ciphertext} (h : file.vault = .encoded c) :
    Seals (.v2 file) (c.map .inl .inl)
  | entry {text : Str} {file : VaultFileV1} {name : Str} {entry : EncryptedEntryV1}
      {c : Ciphertext} (hentry : file.entries[name]? = some entry)
      (h : entry.ciphertext = .encoded c) : Seals (.v1 text file) (c.map .inl .inl)
  | bundle {b : Bundle} {c : Sealed BundleKey Payload} (h : b.blob = .encoded c) :
    Seals (.bundle b) (c.map .inr .inr)

/-! ## The thief -/

/-- A bundle with a payload, sealed to a vault as it was in a version. -/
structure Post where
  version : Version
  payload : Payload
  bundle : Bundle

/-- The bundle was sealed to the identity of the vault, with an ephemeral
secret that is not one of its data keys. -/
def Post.Sent (past : List Version) (post : Post) : Prop :=
  post.version ∈ past ∧ ∃ store esk nonce,
    sealingKey post.version.contents = some (VaultStore.dataKey store) ∧
    (∀ x ∈ past, sealingKey x.contents ≠ some (.random esk)) ∧
    post.bundle = sealBundle ⟨store.shareIdentitySeed⟩ post.payload esk nonce

structure Thief where
  versions : Set Version
  posts : Set Post
  guesses : Set Str
  keys : Set Key

namespace Thief

/-- What the thief has is out of a run. -/
structure Of (thief : Thief) (v : Vault) (past : List Version) : Prop where
  versions : ∀ x ∈ thief.versions, x ∈ past
  posts : ∀ post ∈ thief.posts, post.Sent past
  keys : ∀ k ∈ thief.keys, k ∈ v.cached

/-- The keys to begin with: every guess can be put through Argon2id. -/
def owned (thief : Thief) : Set Secret :=
  {k | (∃ guess ∈ thief.guesses, ∃ salt params, k = .inl (.argon2id guess salt params)) ∨
    ∃ key ∈ thief.keys, k = .inl key}

def seen (thief : Thief) : Set (Sealed Secret Message) :=
  {c | (∃ x ∈ thief.versions, x.contents.Seals c) ∨
    ∃ post ∈ thief.posts, (Contents.bundle post.bundle).Seals c}

/-- The thief gets to see a plaintext. -/
def Reads (thief : Thief) (message : Message) : Prop :=
  Deduces keyFlow thief.owned thief.seen (.plaintext message)

end Thief

/-- The key opens a slot of the file. -/
def Contents.Unwraps (contents : Contents) (key : Key) : Prop :=
  ∃ file dataKey, contents = .v2 file ∧
    (unwrapKey key file.wrap.passphrase aadWrapPassphrase "" = .ok dataKey ∨
      ∃ slot, file.wrap.recovery = some slot ∧
        unwrapKey key slot aadWrapRecovery "" = .ok dataKey)

/-- A guess was in force in the version, or a key opens a slot of it. -/
def Version.Yields (x : Version) (thief : Thief) : Prop :=
  x.inForce.passphrase ∈ thief.guesses ∨
    (∃ phrase ∈ thief.guesses, x.inForce.phrase = some phrase) ∨
    ∃ k ∈ thief.keys, x.contents.Unwraps k

/-- One of the thief's versions of a generation yields. -/
def Thief.Breaks (thief : Thief) (generation : Nat) : Prop :=
  ∃ x ∈ thief.versions, x.generation = generation ∧ x.Yields thief

/-! ## Versions by their ciphertexts -/

/-- The ciphertexts of a version: slots under the secrets in force, and the
entries under the data key. -/
theorem Holds.seals {file : VaultFileV2} {passphrase : Str} {phrase : Option Str} {dataKey : Key}
    {body : VaultBody} (h : Holds file passphrase phrase dataKey body)
    {c : Sealed Secret Message} (hc : (Contents.v2 file).Seals c) :
    (∃ key, c.key = .inl key ∧ c.plaintext = .inl (.key dataKey) ∧
      (Contents.v2 file).Unwraps key ∧ ∃ secret salt params, key = .argon2id secret salt params ∧
        (secret = passphrase ∨ phrase = some secret)) ∨
    c.key = .inl dataKey ∧ c.plaintext = .inl (.body body) := by
  cases hc with
  | passphrase hblob =>
    obtain ⟨salt, nonce, hslot⟩ := h.passphrase
    rw [hslot] at hblob
    cases hblob
    refine .inl ⟨_, rfl, rfl, ⟨file, dataKey, rfl, .inl ?_⟩, _, _, _, rfl, .inl rfl⟩
    rw [hslot, unwrapKey_eq_ok]
    exact ⟨rfl, rfl⟩
  | @recovery _ slot _ hslot hblob =>
    have hrec := h.recovery
    rw [hslot, optionRel_some_left] at hrec
    obtain ⟨secret, rfl, salt, nonce, hslot'⟩ := hrec
    rw [hslot'] at hblob
    cases hblob
    refine .inl ⟨_, rfl, rfl, ⟨file, dataKey, rfl, .inr ⟨slot, hslot, ?_⟩⟩, _, _, _, rfl, .inr rfl⟩
    rw [hslot', unwrapKey_eq_ok]
    exact ⟨rfl, rfl⟩
  | vault hvault =>
    obtain ⟨nonce, hsealed⟩ := h.vault
    rw [hsealed] at hvault
    cases hvault
    exact .inr ⟨rfl, rfl⟩

/-- A slot of a version that yields. -/
theorem Holds.yields {x : Version} {file : VaultFileV2} {dataKey : Key} {thief : Thief}
    (hfile : x.contents = .v2 file)
    (h : Holds file x.inForce.passphrase x.inForce.phrase dataKey x.inForce.entries)
    (hyields : x.Yields thief) :
    ∃ c, x.contents.Seals c ∧ c.plaintext = .inl (.key dataKey) ∧ c.key ∈ thief.owned := by
  rw [hfile]
  obtain ⟨salt, nonce, hpass⟩ := h.passphrase
  have hseals : (Contents.v2 file).Seals _ :=
    .passphrase (c := ⟨_, nonce, aadWrapPassphrase, .key dataKey⟩) (by rw [hpass]; rfl)
  obtain hguess | ⟨secret, hguess, hphrase⟩ | ⟨k, hk, file', dataKey', hfile', hunwrap⟩ := hyields
  · exact ⟨_, hseals, rfl, .inl ⟨_, hguess, _, _, rfl⟩⟩
  · have hrec := h.recovery
    rw [hphrase, optionRel_some_right] at hrec
    obtain ⟨slot, hslot, salt', nonce', rfl⟩ := hrec
    exact ⟨_, .recovery hslot rfl, rfl, .inl ⟨_, hguess, _, _, rfl⟩⟩
  · rw [hfile] at hfile'
    cases hfile'
    obtain hunwrap | ⟨slot, hslot, hunwrap⟩ := hunwrap
    · rw [hpass, unwrapKey_eq_ok] at hunwrap
      exact ⟨_, hseals, rfl, .inr ⟨k, hk, by rw [hunwrap.1]; rfl⟩⟩
    · have hrec := h.recovery
      rw [hslot, optionRel_some_left] at hrec
      obtain ⟨secret, -, salt', nonce', rfl⟩ := hrec
      rw [unwrapKey_eq_ok] at hunwrap
      exact ⟨_, .recovery hslot rfl, rfl, .inr ⟨k, hk, by rw [hunwrap.1]; rfl⟩⟩

/-! ## What stays secret -/

/-- A key that the thief has no way to. -/
def Thief.Misses (thief : Thief) : Key → Prop
  | .random n => ∀ x ∈ thief.versions, sealingKey x.contents = some (.random n) →
      ¬thief.Breaks x.generation
  | .argon2id secret salt params =>
    secret ∉ thief.guesses ∧ .argon2id secret salt params ∉ thief.keys
  | .subkey master _ => thief.Misses master

def Thief.MissesSecret (thief : Thief) : Secret → Prop
  | .inl key => thief.Misses key
  | .inr bk => ∀ key ∈ bk.shared, thief.Misses key

namespace Thief

variable [Bip39] {path : Path} {s : Session} {v : Vault} {past : List Version} {thief : Thief}

theorem secures (h : s.Recorded path v past) (hthief : thief.Of v past) :
    Secures keyFlow thief.owned thief.seen {k | thief.MissesSecret k} where
  owned k hk hmisses := by
    obtain ⟨guess, hguess, salt, params, rfl⟩ | ⟨key, hkey, rfl⟩ := hk
    · exact hmisses.1 hguess
    · -- A wrap key was derived by Argon2id.
      obtain ⟨n, -, hsalt⟩ := h.reachable.tracks.cached key (hthief.keys key hkey)
      cases key with
      | argon2id secret salt params => exact hmisses.2 hkey
      | random n => simp [Key.saltId] at hsalt
      | subkey master context => simp [Key.saltId] at hsalt
  derives k k' hk hmisses := by
    obtain ⟨key, rfl, ⟨context, rfl⟩ | ⟨bk, hmem, rfl⟩⟩ := hk
    · exact hmisses
    · exact hmisses key hmem
  seen c hc k hk hmisses := by
    obtain ⟨dataKey, hplain, rfl⟩ := hk
    obtain ⟨x, hx, hseals⟩ | ⟨post, hpost, hseals⟩ := hc
    · obtain ⟨file, n, hfile, -, hholds⟩ := h.history.holds x (hthief.versions x hx)
      rw [hfile] at hseals
      obtain ⟨key, hkey, hslot, hunwraps, secret, salt, params, rfl, hsecret⟩ | ⟨-, hbody⟩ :=
        hholds.seals hseals
      · rw [hplain] at hslot
        cases hslot
        have hbroken : ¬x.Yields thief :=
          fun hyields => hmisses x hx (by rw [hfile, hholds.sealingKey]) ⟨x, hx, rfl, hyields⟩
        rw [Set.mem_ofPred_eq, hkey]
        refine ⟨fun hguess => hbroken ?_, fun hkeys => hbroken ?_⟩
        · obtain rfl | hphrase := hsecret
          · exact .inl hguess
          · exact .inr (.inl ⟨_, hguess, hphrase⟩)
        · exact .inr (.inr ⟨_, hkeys, hfile ▸ hunwraps⟩)
      · rw [hplain] at hbody
        cases hbody
    · cases hseals
      simp at hplain

/-- The data key of a generation that is broken. -/
theorem deduces_dataKey (h : s.Recorded path v past) (hthief : thief.Of v past) {x : Version}
    {dataKey : Key} (hx : x ∈ past) (hkey : sealingKey x.contents = some dataKey)
    (hbreaks : thief.Breaks x.generation) :
    Deduces keyFlow thief.owned thief.seen (.key (.inl dataKey)) := by
  obtain ⟨y, hy, hgeneration, hyields⟩ := hbreaks
  obtain ⟨file, n, hfile, -, hholds⟩ := h.history.holds y (hthief.versions y hy)
  have hsame := (h.history.generation y (hthief.versions y hy) x hx).mpr hgeneration
  rw [hkey, hfile, hholds.sealingKey, Option.some.injEq] at hsame
  obtain ⟨c, hc, hplain, howned⟩ := hholds.yields hfile hyields
  rw [hsame] at hplain
  exact Deduces.unwrap (c := c) (.inl ⟨y, hy, hc⟩) (.own howned) ⟨dataKey, hplain, rfl⟩

/-- A data key is found out only when its generation is broken. -/
theorem breaks_of_not_misses (h : s.Recorded path v past) (hthief : thief.Of v past) {x : Version}
    {dataKey : Key} (hx : x ∈ past) (hkey : sealingKey x.contents = some dataKey)
    (hmisses : ¬thief.Misses dataKey) : thief.Breaks x.generation := by
  obtain ⟨file, n, hfile, -, hholds⟩ := h.history.holds x hx
  rw [hfile, hholds.sealingKey, Option.some.injEq] at hkey
  subst hkey
  simp only [Misses, not_forall, not_not] at hmisses
  obtain ⟨y, hy, hykey, hbreaks⟩ := hmisses
  have hsame := (h.history.generation y (hthief.versions y hy) x hx).mp
    (by rw [hykey, hfile, hholds.sealingKey])
  exact hsame ▸ hbreaks

end Thief

/-! ## What is read -/

def rekeyedEntries : VaultBody :=
  (∅ : VaultBody).insert ['k'] ⟨['v'], 3, [], [], none, none⟩

/-- A vault is created, and its passphrase changed before anything is stored. -/
theorem recorded_rekeyed :
    letI := onePhrase
    ∃ (s : Session) (v : Vault) (x y : Version), s.Recorded vaultJson v [x, y] ∧
      x.inForce = ⟨['b'], none, rekeyedEntries⟩ ∧ x.generation = 0 ∧
      sealingKey x.contents = some (.random 0) ∧ y.inForce = ⟨['a'], none, ∅⟩ ∧
      y.generation = 0 ∧ sealingKey y.contents = some (.random 0) := by
  let _ := onePhrase
  have hempty : Session.Recorded vaultJson ⟨blankDisk, fun _ => none⟩ .empty [] := .start rfl
  have hcreated := hempty.step .quiet 0 (.openPassphrase ['a'])
  have hchanged := hcreated.step .quiet 0 (.changePassphrase ['b'])
  have hedited := hchanged.step .quiet 0 (.edit fun _ => .ok rekeyedEntries)
  have hsaved := hedited.step .quiet 0 .save
  generalize hpast : record .save _ _ _ _ = past at hsaved
  have hinForce : past.map (·.inForce) = [⟨['b'], none, rekeyedEntries⟩, ⟨['a'], none, ∅⟩] := by
    rw [← hpast]
    decide
  have hgeneration : past.map (·.generation) = [0, 0] := by
    rw [← hpast]
    decide
  have hkey : past.map (fun x => sealingKey x.contents) =
      [some (.random 0), some (.random 0)] := by
    rw [← hpast]
    decide
  obtain ⟨x, y, rfl⟩ : ∃ x y, past = [x, y] :=
    List.length_eq_two.mp (by simpa using congrArg List.length hgeneration)
  simp only [List.map_cons, List.map_nil, List.cons.injEq, and_true] at hinForce hgeneration hkey
  exact ⟨_, _, x, y, hsaved, hinForce.1, hgeneration.1, hkey.1, hinForce.2, hgeneration.2, hkey.2⟩

section

variable {path : Path} {s : Session} {v : Vault} {past : List Version} {thief : Thief}

/-- **What a thief reads of the entries.** -/
theorem thief_reads_entries_iff [Bip39] (h : s.Recorded path v past) (hthief : thief.Of v past)
    (body : VaultBody) : thief.Reads (.inl (.body body)) ↔
      ∃ x ∈ thief.versions, x.inForce.entries = body ∧ thief.Breaks x.generation := by
  rw [Thief.Reads, deduces_plaintext_iff]
  constructor
  · intro hreads
    obtain ⟨c, ⟨x, hx, hseals⟩ | ⟨post, hpost, hseals⟩, hplain, hkey⟩ := hreads
    · have hpast := hthief.versions x hx
      obtain ⟨file, n, hfile, -, hholds⟩ := h.history.holds x hpast
      rw [hfile] at hseals
      obtain ⟨_, -, hslot, -⟩ | ⟨hdata, hbody⟩ := hholds.seals hseals
      · rw [hplain] at hslot
        cases hslot
      · rw [hplain] at hbody
        cases hbody
        rw [hdata] at hkey
        exact ⟨x, hx, rfl, Thief.breaks_of_not_misses h hthief hpast
          (by rw [hfile, hholds.sealingKey]) (hkey.key_notMem (Thief.secures h hthief))⟩
    · cases hseals
      simp at hplain
  · intro hbroken
    obtain ⟨x, hx, rfl, hbreaks⟩ := hbroken
    have hpast := hthief.versions x hx
    obtain ⟨file, n, hfile, -, hholds⟩ := h.history.holds x hpast
    obtain ⟨nonce, hvault⟩ := hholds.vault
    have hseals := Contents.Seals.vault hvault
    rw [← hfile] at hseals
    refine ⟨_, .inl ⟨x, hx, hseals⟩, rfl, ?_⟩
    exact Thief.deduces_dataKey h hthief hpast (by rw [hfile, hholds.sealingKey]) hbreaks

/-- The first passphrase still opens what was stored after it was changed;
another string opens nothing. -/
theorem thief_reads_entries_iff_rekeyed :
    letI := onePhrase
    ∃ (s : Session) (v : Vault) (past : List Version), s.Recorded vaultJson v past ∧
      Thief.Reads ⟨{x | x ∈ past}, ∅, {['a']}, ∅⟩ (.inl (.body rekeyedEntries)) ∧
      ¬Thief.Reads ⟨{x | x ∈ past}, ∅, {['c']}, ∅⟩ (.inl (.body rekeyedEntries)) := by
  let _ := onePhrase
  obtain ⟨s, v, x, y, hrun, hx, hxg, -, hy, hyg, -⟩ := recorded_rekeyed
  have hthief : ∀ guesses, Thief.Of ⟨{x' | x' ∈ [x, y]}, ∅, guesses, ∅⟩ v [x, y] :=
    fun guesses => ⟨fun _ h => h, by simp, by simp⟩
  refine ⟨s, v, [x, y], hrun, ?_, ?_⟩
  · refine (thief_reads_entries_iff hrun (hthief {['a']}) rekeyedEntries).mpr ?_
    exact ⟨x, by simp, by rw [hx], y, by simp, by rw [hxg, hyg], .inl (by simp [hy])⟩
  · intro hreads
    obtain ⟨_, -, -, z, hz, -, hyields⟩ :=
      (thief_reads_entries_iff hrun (hthief {['c']}) rekeyedEntries).mp hreads
    obtain rfl | rfl : z = x ∨ z = y := by simpa using hz
    · simp [Version.Yields, hx] at hyields
    · simp [Version.Yields, hy] at hyields

/-- **What a thief reads of the bundles.** -/
theorem thief_reads_payload_iff [Bip39] (h : s.Recorded path v past) (hthief : thief.Of v past)
    (payload : Payload) : thief.Reads (.inr payload) ↔
      ∃ post ∈ thief.posts, post.payload = payload ∧ thief.Breaks post.version.generation := by
  rw [Thief.Reads, deduces_plaintext_iff]
  constructor
  · intro hreads
    obtain ⟨c, ⟨x, hx, hseals⟩ | ⟨post, hpost, hseals⟩, hplain, hkey⟩ := hreads
    · obtain ⟨file, n, hfile, -, hholds⟩ := h.history.holds x (hthief.versions x hx)
      rw [hfile] at hseals
      obtain ⟨_, -, hslot, -⟩ | ⟨-, hbody⟩ := hholds.seals hseals
      · rw [hplain] at hslot
        cases hslot
      · rw [hplain] at hbody
        cases hbody
    · obtain ⟨hversion, store, esk, nonce, hdata, hfresh, hbundle⟩ := hthief.posts post hpost
      rw [hbundle] at hseals
      cases hseals with | bundle hblob =>
      cases hblob
      cases hplain
      have hmisses := hkey.key_notMem (Thief.secures h hthief)
      refine ⟨post, hpost, rfl, Thief.breaks_of_not_misses h hthief hversion hdata fun hdataKey =>
        hmisses fun key hmem => ?_⟩
      -- Neither party's secret is found out.
      obtain rfl | rfl := Sym2.mem_iff.mp hmem
      · exact fun x hx hx' => absurd hx' (hfresh x (hthief.versions x hx))
      · exact hdataKey
  · intro hbroken
    obtain ⟨post, hpost, rfl, hbreaks⟩ := hbroken
    obtain ⟨hversion, store, esk, nonce, hdata, -, hbundle⟩ := hthief.posts post hpost
    refine ⟨_, .inr ⟨post, hpost, .bundle (by rw [hbundle]; rfl)⟩, rfl, ?_⟩
    have hdataKey := Thief.deduces_dataKey h hthief hversion hdata hbreaks
    have hidentity : Deduces keyFlow thief.owned thief.seen (.key (.inl store.shareIdentitySeed)) :=
      hdataKey.derive ⟨_, rfl, .inl ⟨_, rfl⟩⟩
    exact hidentity.derive ⟨_, rfl, .inr ⟨_, by simp [bundleKey], rfl⟩⟩

def sharedNote : Payload :=
  ⟨[⟨['k'], ['v'], 3⟩], none⟩

/-- A bundle sent after the passphrase was changed opens with the first one. -/
theorem thief_reads_payload_iff_rekeyed :
    letI := onePhrase
    ∃ (s : Session) (v : Vault) (past : List Version) (post : Post), s.Recorded vaultJson v past ∧
      Thief.Reads ⟨{x | x ∈ past}, {post}, {['a']}, ∅⟩ (.inr sharedNote) ∧
      ¬Thief.Reads ⟨{x | x ∈ past}, {post}, {['c']}, ∅⟩ (.inr sharedNote) := by
  let _ := onePhrase
  obtain ⟨s, v, x, y, hrun, hx, hxg, hxkey, hy, hyg, hykey⟩ := recorded_rekeyed
  let store := VaultStore.created vaultJson ['a'] 0
  let post : Post :=
    ⟨x, sharedNote, sealBundle ⟨store.shareIdentitySeed⟩ sharedNote 100 101⟩
  have hsent : post.Sent [x, y] :=
    ⟨by simp [post], store, 100, 101, hxkey, by simp [hxkey, hykey], rfl⟩
  have hthief : ∀ guesses, Thief.Of ⟨{x' | x' ∈ [x, y]}, {post}, guesses, ∅⟩ v [x, y] :=
    fun guesses => ⟨fun _ h => h, by simpa using hsent, by simp⟩
  refine ⟨s, v, [x, y], post, hrun, ?_, ?_⟩
  · refine (thief_reads_payload_iff hrun (hthief {['a']}) sharedNote).mpr ?_
    exact ⟨post, by simp, rfl, y, by simp, by rw [hyg]; exact hxg.symm, .inl (by simp [hy])⟩
  · intro hreads
    obtain ⟨_, -, -, z, hz, -, hyields⟩ :=
      (thief_reads_payload_iff hrun (hthief {['c']}) sharedNote).mp hreads
    obtain rfl | rfl : z = x ∨ z = y := by simpa using hz
    · simp [Version.Yields, hx] at hyields
    · simp [Version.Yields, hy] at hyields

end

end HearthVault
