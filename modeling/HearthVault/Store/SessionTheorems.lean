/-
HearthVault.Store.SessionTheorems — what is in force is what opens the vault.

`Tracks` relates the two levels of `Store.Session`. Slots and salts come in
only here: an open store wraps its data key under what is in force in it, the
vault file under what was in force when it was saved, and a store whose
passphrase was changed has a salt that no wrap key was ever derived with.
Every operation keeps the relation (`Tracks.step`), so it holds after any run
(`Session.Reachable.tracks`), and it says what opens the file.
-/
import HearthVault.Store.Outcomes
import HearthVault.Store.Runs
import HearthVault.Store.Session

namespace HearthVault

open Files Symbolic

/-! ## Related options -/

section

variable {α β : Type} {r r' : α → β → Prop} {x : Option α} {y : Option β}

theorem optionRel_imp (h : Option.Rel r x y) (himp : ∀ a b, r a b → r' a b) :
    Option.Rel r' x y := by
  cases h with
  | some h => exact .some (himp _ _ h)
  | none => exact .none

theorem optionRel_some_left {a : α} : Option.Rel r (some a) y ↔ ∃ b, y = some b ∧ r a b := by
  cases y <;> simp

theorem optionRel_some_right {b : β} : Option.Rel r x (some b) ↔ ∃ a, x = some a ∧ r a b := by
  cases x <;> simp

end

/-! ## Salts and nonces -/

def WrapEntry.saltId (slot : WrapEntry) : Nat :=
  match slot.salt with
  | .encoded salt => salt.ident
  | .malformed _ => 0

/-- The salt a wrap key was derived with. -/
def Key.saltId : Key → Option Nat
  | .argon2id _ salt _ => some salt.ident
  | _ => none

def VaultFileV2.nonce (file : VaultFileV2) : Nat :=
  match file.vault with
  | .encoded c => c.nonce
  | .malformed _ => 0

@[simp] theorem VaultStore.toFile_nonce (store : VaultStore) (n : Nat) :
    (store.toFile n).nonce = n := rfl

@[simp] theorem VaultStore.toFile_wrap (store : VaultStore) (n : Nat) :
    (store.toFile n).wrap = ⟨store.wrapPassphrase, store.wrapRecovery⟩ := rfl

/-- A wrap key that opens a vault was derived with its salt. -/
theorem Holds.saltId {file : VaultFileV2} {passphrase : Str} {phrase : Option Str}
    {dataKey key : Key} {body : VaultBody} (h : Holds file passphrase phrase dataKey body)
    (p : Str) (hkey : VaultStore.deriveWrapKeyContents p (.v2 file) = .ok key) :
    key.saltId = some file.wrap.passphrase.saltId := by
  obtain ⟨salt, hsalt, rfl⟩ := (h.deriveWrapKey_iff p key).mp hkey
  simp [Key.saltId, WrapEntry.saltId, hsalt]

/-! ## The relation -/

/-- The store wraps its data key under what is in force in it. -/
structure StoreTracks (path : Path) (rng : Nat) (store : VaultStore) (s : InForce) : Prop where
  path : store.path = path
  kdf : store.kdf.validate = .ok ()
  passphrase : Wraps store.wrapPassphrase s.passphrase aadWrapPassphrase store.kdf store.dataKey
  recovery : Option.Rel
    (fun slot phrase => Wraps slot phrase aadWrapRecovery store.kdf store.dataKey)
    store.wrapRecovery s.phrase
  body : store.body = s.entries
  salt : store.wrapPassphrase.saltId < rng
  loaded : ∃ file, store.loadedFp = some ⟨.v2 file⟩ ∧ file.nonce < rng

/-- The file is a vault with what is in force in it. -/
structure FileTracks (rng : Nat) (file : VaultFileV2) (s : InForce) : Prop where
  holds : ∃ dataKey, Holds file s.passphrase s.phrase dataKey s.entries
  salt : file.wrap.passphrase.saltId < rng
  nonce : file.nonce < rng

/-- The salt of a store that could be saved over the file: the file's, or one
that no wrap key was derived with. -/
structure SaltTracks (cached : List Key) (file : VaultFileV2) (store : VaultStore)
    (rekeyed : Bool) : Prop where
  same : rekeyed = false → store.wrapPassphrase.saltId = file.wrap.passphrase.saltId
  other : rekeyed = true → store.wrapPassphrase.saltId ≠ file.wrap.passphrase.saltId
  unused : rekeyed = true → ∀ k ∈ cached, k.saltId ≠ some store.wrapPassphrase.saltId

structure Tracks (path : Path) (s : Session) (v : Vault) : Prop where
  file : Option.Rel (fun c sv => ∃ file, c = .v2 file ∧ FileTracks s.disk.rng file sv)
    (s.disk.fs path) v.saved
  stores : ∀ i, Option.Rel (StoreTracks path s.disk.rng) (s.stores i) (v.opened i)
  cached : ∀ k ∈ v.cached, ∃ n < s.disk.rng, k.saltId = some n
  revoked : ∀ k ∈ v.revoked, k ∈ v.cached
  gone : ∀ k ∈ v.revoked, ∀ file, s.disk.fs path = some (.v2 file) →
    k.saltId ≠ some file.wrap.passphrase.saltId
  salts : ∀ i store file, s.stores i = some store → s.disk.fs path = some (.v2 file) →
    store.loadedFp = some ⟨.v2 file⟩ → SaltTracks v.cached file store (v.rekeyed i)

/-- The relation after an operation. -/
def TracksAfter (path : Path) (s : Session) (v : Vault) (i : Nat) (op : Op)
    (r : Session × Answer) : Prop :=
  Tracks path r.1 (v.after i op (s.wrote path r.1) r.2)

theorem StoreTracks.mono {path : Path} {rng rng' : Nat} {store : VaultStore} {s : InForce}
    (h : StoreTracks path rng store s) (hrng : rng ≤ rng') : StoreTracks path rng' store s := by
  obtain ⟨file, hfp, hnonce⟩ := h.loaded
  exact { h with salt := h.salt.trans_le hrng, loaded := ⟨file, hfp, hnonce.trans_le hrng⟩ }

theorem FileTracks.mono {rng rng' : Nat} {file : VaultFileV2} {s : InForce}
    (h : FileTracks rng file s) (hrng : rng ≤ rng') : FileTracks rng' file s :=
  ⟨h.holds, h.salt.trans_le hrng, h.nonce.trans_le hrng⟩

/-- The store of a file that was just read. -/
theorem FileTracks.opened {rng : Nat} {file : VaultFileV2} {s : InForce} {dataKey : Key}
    (h : FileTracks rng file s) (hholds : Holds file s.passphrase s.phrase dataKey s.entries)
    (path : Path) (lock : Bool) :
    StoreTracks path rng { VaultStore.opened path file dataKey s.entries with lock } s :=
  ⟨rfl, hholds.kdf, hholds.passphrase, hholds.recovery, rfl, h.salt, file, rfl, h.nonce⟩

/-- The file a store makes. -/
theorem StoreTracks.toFile {path : Path} {rng : Nat} {store : VaultStore} {s : InForce}
    (h : StoreTracks path rng store s) {n rng' : Nat} (hn : n < rng') (hrng : rng ≤ rng') :
    FileTracks rng' (store.toFile n) s := by
  have hholds := VaultStore.toFile_holds h.kdf h.passphrase h.recovery n
  rw [h.body] at hholds
  exact ⟨⟨_, hholds⟩, h.salt.trans_le hrng, hn⟩

namespace Tracks

variable {path : Path} {s : Session} {v : Vault} (h : Tracks path s v)

include h

/-- The file that is there is a vault. -/
theorem v2 (c : Contents) (hc : s.disk.fs path = some c) : ∃ file, c = .v2 file := by
  have hfile := h.file
  rw [hc, optionRel_some_left] at hfile
  obtain ⟨sv, -, file, rfl, -⟩ := hfile
  exact ⟨file, rfl⟩

/-- Random values may be drawn. -/
theorem kept {w : Disk} (hw : s.disk.Kept path w) : Tracks path ⟨w, s.stores⟩ v where
  file := by
    dsimp only
    rw [hw.fs]
    exact optionRel_imp h.file fun c sv ⟨file, hc, hfile⟩ => ⟨file, hc, hfile.mono hw.rng⟩
  stores i := optionRel_imp (h.stores i) fun store sv hs => hs.mono hw.rng
  cached k hk := by
    obtain ⟨n, hn, hsalt⟩ := h.cached k hk
    exact ⟨n, hn.trans_le hw.rng, hsalt⟩
  revoked := h.revoked
  gone k hk file hfile := h.gone k hk file (hw.fs ▸ hfile)
  salts i store file hs hfile := h.salts i store file hs (hw.fs ▸ hfile)

/-- A store is dropped. -/
theorem drop (i : Nat) :
    Tracks path ⟨s.disk, Function.update s.stores i none⟩ (v.hold i none) where
  file := h.file
  stores j := by
    by_cases hj : j = i
    · subst hj
      simp [Vault.hold]
    · simpa [Vault.hold, Function.update_of_ne hj] using h.stores j
  cached := h.cached
  revoked := h.revoked
  gone := h.gone
  salts j store file hs hfile hfp := by
    by_cases hj : j = i
    · subst hj
      simp at hs
    · simp only [Function.update_of_ne hj, Vault.hold] at hs ⊢
      exact h.salts j store file hs hfile hfp

/-- A store is put in the place of another. -/
theorem put (i : Nat) (store : VaultStore) (sv : InForce) (rekeyed : Bool)
    (hstore : StoreTracks path s.disk.rng store sv)
    (hsalt : ∀ file, s.disk.fs path = some (.v2 file) → store.loadedFp = some ⟨.v2 file⟩ →
      SaltTracks v.cached file store rekeyed) :
    Tracks path ⟨s.disk, Function.update s.stores i (some store)⟩
      { v with
        opened := Function.update v.opened i (some sv)
        rekeyed := Function.update v.rekeyed i rekeyed } where
  file := h.file
  stores j := by
    by_cases hj : j = i
    · subst hj
      simpa using Option.Rel.some hstore
    · simpa [Function.update_of_ne hj] using h.stores j
  cached := h.cached
  revoked := h.revoked
  gone := h.gone
  salts j store' file hs hfile hfp := by
    by_cases hj : j = i
    · subst hj
      simp only [Function.update_self, Option.some.injEq] at hs ⊢
      subst hs
      exact hsalt file hfile hfp
    · simp only [Function.update_of_ne hj] at hs ⊢
      exact h.salts j store' file hs hfile hfp

/-- The vault file is replaced by one that no store was loaded from. -/
theorem replace {w : Disk} {file : VaultFileV2} {sv : InForce} {revoked : List Key}
    (hfs : w.fs path = some (.v2 file)) (hrng : s.disk.rng ≤ w.rng)
    (hnonce : s.disk.rng ≤ file.nonce) (hfile : FileTracks w.rng file sv)
    (hrevoked : ∀ k ∈ revoked, k ∈ v.cached)
    (hgone : ∀ k ∈ revoked, k.saltId ≠ some file.wrap.passphrase.saltId) :
    Tracks path ⟨w, s.stores⟩ { v with saved := some sv, revoked } where
  file := by
    dsimp only
    rw [hfs]
    exact .some ⟨file, rfl, hfile⟩
  stores i := optionRel_imp (h.stores i) fun store sv hs => hs.mono hrng
  cached k hk := by
    obtain ⟨n, hn, hsalt⟩ := h.cached k hk
    exact ⟨n, hn.trans_le hrng, hsalt⟩
  revoked := hrevoked
  gone k hk file' hfile' := by
    dsimp only at hfile'
    rw [hfs] at hfile'
    cases hfile'
    exact hgone k hk
  salts i store file' hs hfile' hfp := by
    -- The file a store was loaded from has an older nonce.
    dsimp only at hs hfile'
    rw [hfs] at hfile'
    cases hfile'
    have hrel := h.stores i
    rw [hs, optionRel_some_left] at hrel
    obtain ⟨sv, -, hst⟩ := hrel
    obtain ⟨old, hold, hlt⟩ := hst.loaded
    rw [hfp] at hold
    cases hold
    omega

theorem salt_lt {file : VaultFileV2} (hfs : s.disk.fs path = some (.v2 file)) :
    file.wrap.passphrase.saltId < s.disk.rng := by
  have hfile := h.file
  rw [hfs, optionRel_some_left] at hfile
  obtain ⟨sv, -, _, ⟨⟩, hfile⟩ := hfile
  exact hfile.salt

/-- A wrap key is derived from the vault file. -/
theorem derived {k : Key} {file : VaultFileV2} (hfs : s.disk.fs path = some (.v2 file))
    (hk : k.saltId = some file.wrap.passphrase.saltId) :
    Tracks path s { v with cached := k :: v.cached } where
  file := h.file
  stores := h.stores
  cached k' hk' := by
    obtain rfl | hk' := List.mem_cons.mp hk'
    · exact ⟨_, h.salt_lt hfs, hk⟩
    · exact h.cached k' hk'
  revoked k' hk' := List.mem_cons_of_mem k (h.revoked k' hk')
  gone := h.gone
  salts i store file' hs hfs' hfp := by
    have hold := h.salts i store file' hs hfs' hfp
    rw [hfs] at hfs'
    cases hfs'
    refine ⟨hold.same, hold.other, fun hrekeyed k' hk' => ?_⟩
    obtain rfl | hk' := List.mem_cons.mp hk'
    · rw [hk, Ne, Option.some.injEq]
      exact (hold.other hrekeyed).symm
    · exact hold.unused hrekeyed k' hk'

/-- A store is read from the vault file. -/
theorem load (i : Nat) {file : VaultFileV2} {sv : InForce} {dataKey : Key}
    (hfs : s.disk.fs path = some (.v2 file)) (hsaved : v.saved = some sv)
    (hholds : Holds file sv.passphrase sv.phrase dataKey sv.entries) (lock : Bool) :
    Tracks path ⟨s.disk, Function.update s.stores i
      (some { VaultStore.opened path file dataKey sv.entries with lock })⟩ (v.hold i v.saved) := by
  have hfile := h.file
  rw [hfs, hsaved, Option.rel_some_some] at hfile
  obtain ⟨_, ⟨⟩, hfile⟩ := hfile
  rw [hsaved]
  refine h.put i _ sv false (hfile.opened hholds path lock) fun file' hfs' _ => ?_
  rw [hfs] at hfs'
  cases hfs'
  exact ⟨fun _ => rfl, nofun, nofun⟩

/-! ## One operation -/

/-- The store of the vault file as it is. -/
def FromFile (path : Path) (s : Session) (v : Vault) (store : VaultStore) : Prop :=
  ∃ file sv dataKey, s.disk.fs path = some (.v2 file) ∧ v.saved = some sv ∧
    Holds file sv.passphrase sv.phrase dataKey sv.entries ∧
    store = .opened path file dataKey sv.entries

omit h in
/-- The two steps of `Vault.after` when the file is not written. -/
theorem after_kept {w : Disk} (hw : s.disk.Kept path w) (stores : Nat → Option VaultStore)
    (i : Nat) (op : Op) (answer : Answer) :
    v.after i op (s.wrote path ⟨w, stores⟩) answer = v.answered i op answer := by
  simp [Vault.after, Session.wrote, hw.fs]

/-- What was read, in the terms of the relation. -/
theorem read {c : Contents} (hc : s.disk.fs path = some c) :
    ∃ file sv dataKey, c = .v2 file ∧ v.saved = some sv ∧
      Holds file sv.passphrase sv.phrase dataKey sv.entries := by
  have hfile := h.file
  rw [hc, optionRel_some_left] at hfile
  obtain ⟨sv, hsaved, file, rfl, hfile⟩ := hfile
  obtain ⟨dataKey, hholds⟩ := hfile.holds
  exact ⟨file, sv, dataKey, rfl, hsaved, hholds⟩

/-- A store opened from the file as it is. -/
theorem opening {m : Machine} {i : Nat} {op : Op} {x : Prog VaultStore}
    (hx : Fx.Meets m (s.disk.Frame ∅) x (fun store w => s.disk.Frame ∅ w ∧ FromFile path s v store)
      (s.disk.Frame ∅))
    (hdone : v.answered i op .done = v.hold i v.saved)
    (hfailed : v.answered i op .failed = v.hold i none) :
    TracksAfter path s v i op (s.opening i (x.run m s.disk)) := by
  have hrun := hx s.disk (.refl ∅ s.disk)
  rcases hr : x.run m s.disk with ⟨r, w⟩
  rw [hr] at hrun
  cases r with
  | error e =>
    have hkept : s.disk.Kept path w := World.Frame.kept hrun (by simp)
    simp only [Session.opening, TracksAfter, after_kept hkept, hfailed]
    exact (h.kept hkept).drop i
  | ok store =>
    obtain ⟨hframe, file, sv, dataKey, hfs, hsaved, hholds, rfl⟩ := hrun
    have hkept := hframe.kept (p := path) (by simp)
    simp only [Session.opening, TracksAfter, after_kept hkept, hdone]
    exact (h.kept hkept).load i (hkept.fs.trans hfs) hsaved hholds false

/-- A method that leaves the file as it is. -/
theorem method {α : Type} {m : Machine} {i : Nat} {op : Op} {call : VaultStore → Prog α}
    {store' : α → VaultStore} {answer : α → Answer}
    (hfailed : v.answered i op .failed = v) (hdied : v.answered i op .died = v.hold i none)
    (hcall : ∀ store sv, s.stores i = some store → v.opened i = some sv →
      StoreTracks path s.disk.rng store sv →
      Fx.Meets m (s.disk.Frame ∅) (call store)
        (fun a w => s.disk.Kept path w ∧
          Tracks path ⟨w, Function.update s.stores i (some (store' a))⟩
            (v.answered i op (answer a)))
        (s.disk.Kept path)) :
    TracksAfter path s v i op (s.method m i call store' answer) := by
  unfold Session.method
  cases hs : s.stores i with
  | none =>
    have hkept : s.disk.Kept path s.disk := ⟨rfl, le_rfl⟩
    have hafter := after_kept (v := v) hkept s.stores i op .failed
    dsimp only [TracksAfter]
    rw [hafter, hfailed]
    exact h
  | some store =>
    have hrel := h.stores i
    rw [hs, optionRel_some_left] at hrel
    obtain ⟨sv, hsv, hstore⟩ := hrel
    have hrun := hcall store sv hs hsv hstore s.disk (.refl ∅ s.disk)
    dsimp only
    rcases hr : (call store).run m s.disk with ⟨(_ | _ | _) | a, w⟩ <;> rw [hr] at hrun
    · simp only [TracksAfter, after_kept hrun, hfailed]
      exact h.kept hrun
    · simp only [TracksAfter, after_kept hrun, hdied]
      exact (h.kept hrun).drop i
    · simp only [TracksAfter, after_kept hrun, hdied]
      exact (h.kept hrun).drop i
    · simp only [TracksAfter, after_kept hrun.1]
      exact hrun.2

theorem openMnemonic [Bip39] (m : Machine) (i : Nat) (mnemonic : Str) :
    TracksAfter path s v i (.openMnemonic mnemonic) (s.step path m i (.openMnemonic mnemonic)) := by
  refine h.opening ?_ rfl rfl
  refine (VaultStore.openAtWithMnemonic_meets mnemonic).weaken (fun _ hw => hw) ?_ fun _ hw => hw
  rintro store w ⟨hw, c, phrase, hc, -, hopen⟩
  obtain ⟨file, sv, dataKey, rfl, hsaved, hholds⟩ := h.read hc
  exact ⟨hw, file, sv, dataKey, hc, hsaved, hholds, ((hholds.mnemonic_iff path _ _).mp hopen).2⟩

theorem openWrapKey [Bip39] (m : Machine) (i : Nat) (wrapKey : Key) :
    TracksAfter path s v i (.openWrapKey wrapKey) (s.step path m i (.openWrapKey wrapKey)) := by
  refine h.opening ?_ rfl rfl
  refine (VaultStore.openAtWithWrapKey_meets wrapKey).weaken (fun _ hw => hw) ?_ fun _ hw => hw
  rintro store w ⟨hw, c, hc, hopen⟩
  obtain ⟨file, sv, dataKey, rfl, hsaved, hholds⟩ := h.read hc
  exact ⟨hw, file, sv, dataKey, hc, hsaved, hholds, ((hholds.wrapKey_iff path _ _).mp hopen).2⟩

/-- A file with a nonce just drawn is another file. -/
theorem after_written {w : Disk} {file : VaultFileV2} (hfs : w.fs path = some (.v2 file))
    (hnonce : s.disk.rng ≤ file.nonce) (stores : Nat → Option VaultStore) (i : Nat) (op : Op)
    (answer : Answer) :
    v.after i op (s.wrote path ⟨w, stores⟩) answer = (v.written i op).answered i op answer := by
  have hne : w.fs path ≠ s.disk.fs path := by
    intro heq
    have hfile := h.file
    rw [← heq, hfs, optionRel_some_left] at hfile
    obtain ⟨sv, -, _, ⟨⟩, hold⟩ := hfile
    have := hold.nonce
    omega
  simp [Vault.after, Session.wrote, hne]

omit h in
theorem created_holds (passphrase : Str) (n nonce : Nat) :
    Holds ((VaultStore.created path passphrase n).toFile nonce) passphrase none (.random n) ∅ :=
  VaultStore.toFile_holds KdfParams.default_validate
    ⟨n + 1, n + 2, rfl⟩ .none nonce

/-- A vault is created, perhaps in the place of another. -/
theorem created {w : Disk} {passphrase : Str} (i : Nat)
    (hw : VaultStore.Created path passphrase s.disk w) :
    Tracks path ⟨w, s.stores⟩ (v.written i (.openPassphrase passphrase)) := by
  have hrng := hw.rng
  have hsalt : ((VaultStore.created path passphrase s.disk.rng).toFile
      (s.disk.rng + 3)).wrap.passphrase.saltId = s.disk.rng + 1 := rfl
  refine h.replace hw.written (by omega) (by simp)
    ⟨⟨_, created_holds passphrase s.disk.rng _⟩, ?_, ?_⟩ h.revoked fun k hk => ?_
  · rw [hsalt]
    omega
  · rw [VaultStore.toFile_nonce]
    exact hrng
  · obtain ⟨n, hn, hkey⟩ := h.cached k (h.revoked k hk)
    rw [hsalt, hkey, Ne, Option.some.injEq]
    omega

theorem openPassphrase [Bip39] (m : Machine) (i : Nat) (passphrase : Str) :
    TracksAfter path s v i (.openPassphrase passphrase)
      (s.step path m i (.openPassphrase passphrase)) := by
  have hrun := VaultStore.openAtWithPassphrase_meets (m := m) passphrase h.v2 s.disk
    (.refl ∅ s.disk)
  simp only [Session.step]
  rcases hr : (VaultStore.openAtWithPassphrase path passphrase).run m s.disk with ⟨_ | store, w⟩ <;>
    rw [hr] at hrun <;> simp only [Session.opening, TracksAfter]
  · obtain hkept | hcreated := hrun
    · simp only [after_kept hkept]
      exact (h.kept hkept).drop i
    · rw [h.after_written hcreated.written (by simp)]
      exact (h.created i hcreated).drop i
  · obtain ⟨hkept, c, hc, hload⟩ | ⟨hcreated, rfl⟩ := hrun
    · simp only [after_kept hkept]
      obtain ⟨file, sv, dataKey, rfl, hsaved, hholds⟩ := h.read hc
      obtain ⟨-, rfl⟩ := (hholds.load_iff path _ _).mp hload
      exact (h.kept hkept).load i (hkept.fs.trans hc) hsaved hholds false
    · rw [h.after_written hcreated.written (by simp)]
      exact (h.created i hcreated).load i hcreated.written rfl
        (created_holds passphrase s.disk.rng _) false

theorem deriveWrapKey [Bip39] (m : Machine) (i : Nat) (passphrase : Str) :
    TracksAfter path s v i (.deriveWrapKey passphrase)
      (s.step path m i (.deriveWrapKey passphrase)) := by
  have hrun := @VaultStore.deriveWrapKey_meets m path s.disk passphrase s.disk
    (.refl ∅ s.disk)
  simp only [Session.step]
  rcases hr : (VaultStore.deriveWrapKey path passphrase).run m s.disk with ⟨_ | k, w⟩ <;>
    rw [hr] at hrun <;> simp only [TracksAfter]
  · have hkept := World.Frame.kept (p := path) hrun (by simp)
    simp only [after_kept hkept]
    exact h.kept hkept
  · obtain ⟨hframe, c, hc, hderive⟩ := hrun
    have hkept := hframe.kept (p := path) (by simp)
    simp only [after_kept hkept]
    obtain ⟨file, sv, dataKey, rfl, hsaved, hholds⟩ := h.read hc
    exact (h.kept hkept).derived (hkept.fs.trans hc) (hholds.saltId passphrase hderive)

/-- A change to an open store, and to what is in force in it. -/
theorem changed {w : Disk} {i : Nat} {store' : VaultStore} (sv' : InForce) (rekeyed : Bool)
    {v' : Vault} (hkept : s.disk.Kept path w)
    (hstore : StoreTracks path w.rng store' sv')
    (hsalt : ∀ file, s.disk.fs path = some (.v2 file) → store'.loadedFp = some ⟨.v2 file⟩ →
      SaltTracks v.cached file store' rekeyed)
    (hv' : v' = { v with
      opened := Function.update v.opened i (some sv')
      rekeyed := Function.update v.rekeyed i rekeyed }) :
    Tracks path ⟨w, Function.update s.stores i (some store')⟩ v' := by
  rw [hv']
  exact (h.kept hkept).put i store' sv' rekeyed hstore fun file hfs hfp =>
    hsalt file (hkept.fs ▸ hfs) hfp

omit h in
theorem change_eq {i : Nat} {sv : InForce} (hsv : v.opened i = some sv) (f : InForce → InForce) :
    v.change i f = { v with
      opened := Function.update v.opened i (some (f sv))
      rekeyed := Function.update v.rekeyed i (v.rekeyed i) } := by
  simp [Vault.change, hsv]

theorem edit [Bip39] (m : Machine) (i : Nat) (f : VaultBody → Result VaultBody) :
    TracksAfter path s v i (.edit f) (s.step path m i (.edit f)) := by
  refine h.method rfl rfl fun store sv hs hsv hstore => Fx.Meets.ofResult fun w hw => ?_
  have hkept := hw.kept (p := path) (by simp)
  cases hedit : store.onBody f with
  | error e => exact hkept
  | ok store' =>
    simp only [VaultStore.onBody, result_bind_eq_ok, hstore.body] at hedit
    obtain ⟨body, hbody, ⟨⟩⟩ := hedit
    refine ⟨hkept, h.changed { sv with entries := body } (v.rekeyed i) hkept ?_
      (fun file hfs hfp => ?_)
      ((change_eq hsv _).trans (by rw [hbody]; rfl))⟩
    · exact { hstore.mono hkept.rng with body := rfl }
    · exact { h.salts i store file hs hfs hfp with }

theorem changePassphrase [Bip39] (m : Machine) (i : Nat) (passphrase : Str) :
    TracksAfter path s v i (.changePassphrase passphrase)
      (s.step path m i (.changePassphrase passphrase)) := by
  refine h.method rfl rfl fun store sv hs hsv hstore => ?_
  refine Fx.Meets.random (Fx.Meets.random (Fx.Meets.ofResult fun w hw => ?_))
  have hrng : w.rng = s.disk.rng + 2 := hw.rng
  have hkept : s.disk.Kept path w := ⟨hw.fs path (by simp), by omega⟩
  cases hwrap : store.rewrapPassphrase passphrase s.disk.rng (s.disk.rng + 1) with
  | error e => exact hkept
  | ok store' =>
    simp only [VaultStore.rewrapPassphrase, result_bind_eq_ok, VaultStore.wrapSlot_eq_ok] at hwrap
    obtain ⟨slot, ⟨-, rfl⟩, ⟨⟩⟩ := hwrap
    refine ⟨hkept, h.changed { sv with passphrase } true hkept ?_
      (fun file hfs hfp => ?_) ?_⟩
    · have hold := hstore.mono hkept.rng
      exact { hold with
        passphrase := ⟨s.disk.rng, s.disk.rng + 1, rfl⟩
        salt := by simp [WrapEntry.saltId, Octets.random32, hrng] }
    · -- The salt was drawn just now: no file and no wrap key has it.
      refine ⟨by simp, fun _ heq => ?_, fun _ k hk heq => ?_⟩
      · have hsalt := h.salt_lt hfs
        rw [← heq] at hsalt
        exact absurd hsalt (by simp [WrapEntry.saltId, Octets.random32])
      · obtain ⟨n, hn, hsalt⟩ := h.cached k hk
        rw [hsalt, Option.some.injEq] at heq
        exact absurd hn (by simp [heq, WrapEntry.saltId, Octets.random32])
    · show Vault.mk _ _ _ _ _ = _
      simp [hsv, Vault.change]

theorem newRecoveryKey [Bip39] (m : Machine) (i : Nat) :
    TracksAfter path s v i .newRecoveryKey (s.step path m i .newRecoveryKey) := by
  refine h.method rfl rfl fun store sv hs hsv hstore => ?_
  refine Fx.Meets.random (Fx.Meets.random (Fx.Meets.random ?_))
  have hkept : ∀ w, World.Frame ∅ { s.disk with rng := s.disk.rng + 3 } w →
      s.disk.Kept path w :=
    fun w hw => ⟨hw.fs path (by simp), by rw [hw.rng]; simp⟩
  set phrase := Bip39.print (Bip39.fromEntropy (Octets.random32 s.disk.rng))
  refine Fx.Meets.bind (Q := fun store' w => World.Frame ∅ { s.disk with rng := s.disk.rng + 3 } w ∧
    store.rewrapRecovery phrase (s.disk.rng + 1) (s.disk.rng + 2) = .ok store')
    (Fx.Meets.ofResult fun w hw => ?_) fun store' => Fx.Meets.pure fun w ⟨hw, hwrap⟩ => ?_
  · cases hwrap : store.rewrapRecovery phrase (s.disk.rng + 1) (s.disk.rng + 2) with
    | error e => exact hkept w hw
    | ok store' => exact ⟨hw, rfl⟩
  · simp only [VaultStore.rewrapRecovery, result_bind_eq_ok, VaultStore.wrapSlot_eq_ok] at hwrap
    obtain ⟨slot, ⟨-, rfl⟩, ⟨⟩⟩ := hwrap
    refine ⟨hkept w hw, h.changed { sv with phrase := some phrase } (v.rekeyed i) (hkept w hw) ?_
      (fun file hfs hfp => { h.salts i store file hs hfs hfp with }) (change_eq hsv _)⟩
    exact { hstore.mono (hkept w hw).rng with
      recovery := .some ⟨s.disk.rng + 1, s.disk.rng + 2, rfl⟩ }

theorem refresh [Bip39] (m : Machine) (i : Nat) :
    TracksAfter path s v i .refresh (s.step path m i .refresh) := by
  refine h.method rfl rfl fun store sv hs hsv hstore => ?_
  refine (VaultStore.lockAndRefresh_meets store).weaken (fun _ hw => hw) ?_
    fun _ hw => hw.kept (by simp)
  rintro store' w ⟨hw, c, hc, hrefresh⟩
  rw [hstore.path] at hc
  obtain ⟨file, sv', dataKey, rfl, hsaved, hholds⟩ := h.read hc
  obtain ⟨-, rfl⟩ := (hholds.refresh_iff store store').mp hrefresh
  have hkept := hw.kept (p := path) (by simp)
  rw [hstore.path]
  exact ⟨hkept, (h.kept hkept).load i (hkept.fs.trans hc) hsaved hholds true⟩

/-- A store is saved. -/
theorem saved {w : Disk} {i : Nat} {store : VaultStore} {sv : InForce}
    (hs : s.stores i = some store) (hsv : v.opened i = some sv)
    (hstore : StoreTracks path s.disk.rng store sv) (hw : store.Saved s.disk w) :
    Tracks path ⟨w, s.stores⟩ (v.written i .save) := by
  have hrng := hw.rng
  have hpath := hstore.path
  have hwritten := hw.written
  have hunchanged := hw.unchanged
  rw [hpath] at hwritten hunchanged
  obtain ⟨file, hfp, -⟩ := hstore.loaded
  have hfs : s.disk.fs path = some (.v2 file) := by
    cases hc : s.disk.fs path with
    | none => simp [VaultStore.unchanged, hfp, hc] at hunchanged
    | some c => simpa [VaultStore.unchanged, hfp, hc] using hunchanged
  have hsalts := h.salts i store file hs hfs hfp
  simp only [Vault.written, hsv]
  refine h.replace hwritten hrng.le (by simp) (hstore.toFile hrng hrng.le) (fun k hk => ?_)
    fun k hk => ?_
  · split at hk
    · exact hk
    · exact h.revoked k hk
  · rw [VaultStore.toFile_wrap]
    split at hk
    · rename_i hrekeyed
      exact hsalts.unused hrekeyed k hk
    · rename_i hrekeyed
      rw [hsalts.same (by simpa using hrekeyed)]
      exact h.gone k hk file hfs

theorem save [Bip39] (m : Machine) (i : Nat) :
    TracksAfter path s v i .save (s.step path m i .save) := by
  simp only [Session.step, Session.method]
  cases hs : s.stores i with
  | none =>
    have hkept : s.disk.Kept path s.disk := ⟨rfl, le_rfl⟩
    have hafter := after_kept (v := v) hkept s.stores i .save .failed
    dsimp only [TracksAfter]
    rw [hafter]
    exact h
  | some store =>
    have hrel := h.stores i
    rw [hs, optionRel_some_left] at hrel
    obtain ⟨sv, hsv, hstore⟩ := hrel
    obtain rfl := hstore.path
    have hrun := VaultStore.save_meets (m := m) store s.disk (.refl ∅ s.disk)
    have hafter : ∀ {w : Disk}, store.Saved s.disk w → ∀ stores answer,
        v.after i .save (s.wrote store.path ⟨w, stores⟩) answer =
          (v.written i .save).answered i .save answer :=
      fun hw stores answer => h.after_written hw.written (by simp) stores i .save answer
    dsimp only
    rcases hr : store.save.run m s.disk with ⟨(_ | _ | _) | store', w⟩ <;> rw [hr] at hrun <;>
      simp only [TracksAfter]
    · obtain hkept | hw := hrun
      · simp only [after_kept hkept]
        exact h.kept hkept
      · rw [hafter hw]
        exact h.saved hs hsv hstore hw
    · obtain hkept | hw := hrun
      · simp only [after_kept hkept]
        exact (h.kept hkept).drop i
      · rw [hafter hw]
        exact (h.saved hs hsv hstore hw).drop i
    · obtain hkept | hw := hrun
      · simp only [after_kept hkept]
        exact (h.kept hkept).drop i
      · rw [hafter hw]
        exact (h.saved hs hsv hstore hw).drop i
    · obtain ⟨hw, rfl⟩ := hrun
      rw [hafter hw]
      have hput := (h.saved hs hsv hstore hw).put i
        { store with loadedFp := some ⟨.v2 (store.toFile s.disk.rng)⟩ } sv false
        { hstore.mono hw.rng.le with loaded := ⟨_, rfl, hw.rng⟩ } fun file _ hfp => by
          cases hfp
          exact ⟨fun _ => rfl, nofun, nofun⟩
      simpa [Vault.answered, Vault.written, ← hsv] using hput

/-- Every operation keeps the relation, whatever faults it meets. -/
theorem step [Bip39] (m : Machine) (i : Nat) (op : Op) :
    TracksAfter path s v i op (s.step path m i op) := by
  cases op with
  | openPassphrase passphrase => exact h.openPassphrase m i passphrase
  | openMnemonic mnemonic => exact h.openMnemonic m i mnemonic
  | openWrapKey wrapKey => exact h.openWrapKey m i wrapKey
  | deriveWrapKey passphrase => exact h.deriveWrapKey m i passphrase
  | edit f => exact h.edit m i f
  | changePassphrase passphrase => exact h.changePassphrase m i passphrase
  | newRecoveryKey => exact h.newRecoveryKey m i
  | refresh => exact h.refresh m i
  | save => exact h.save m i
  | close =>
    have hkept : s.disk.Kept path s.disk := ⟨rfl, le_rfl⟩
    simp only [Session.step, TracksAfter, after_kept hkept]
    exact h.drop i

end Tracks

/-! ## Runs -/

/-- The relation holds after any operations. -/
theorem Session.Reachable.tracks [Bip39] {path : Path} {s : Session} {v : Vault}
    (h : s.Reachable path v) : Tracks path s v := by
  induction h with
  | start hfs =>
    exact ⟨by simp [hfs, Vault.empty], fun i => by simp [Vault.empty], by simp [Vault.empty],
      by simp [Vault.empty], by simp [Vault.empty], by simp⟩
  | step h m i op ih => exact ih.step m i op

/-- A way to open the vault file answers a store. -/
def Opens (m : Machine) (x : Prog VaultStore) (w : Disk) (store : VaultStore) : Prop :=
  ∃ w', x.run m w = (.ok store, w')

theorem opens_iff {m : Machine} {x : Prog VaultStore} {w : Disk} {r : Result VaultStore}
    (hx : Fx.Answers m x w r) (store : VaultStore) : Opens m x w store ↔ r = .ok store := by
  obtain ⟨w', hrun, -⟩ := hx
  simp [Opens, hrun]

/-- The vault file opens with what is in force in it and with nothing else,
and every way of opening it gives the same data key and the same entries. -/
structure OpensAs [Bip39] (m : Machine) (path : Path) (w : Disk) (s : InForce)
    (revoked : List Key) : Prop where
  passphrase : ∀ p, (∃ store, Opens m (VaultStore.openAtWithPassphrase path p) w store) ↔
    p = s.passphrase
  mnemonic : ∀ text, (∃ store, Opens m (VaultStore.openAtWithMnemonic path text) w store) ↔
    ∃ phrase, readMnemonic text = .ok phrase ∧ s.phrase = some phrase
  wrapKey : ∀ k, (∃ store, Opens m (VaultStore.openAtWithWrapKey path k) w store) ↔
    ∃ w', (VaultStore.deriveWrapKey path s.passphrase).run m w = (.ok k, w')
  revoked : ∀ k ∈ revoked, ∀ store, ¬Opens m (VaultStore.openAtWithWrapKey path k) w store
  contents : ∃ dataKey, ∀ store,
    (∃ p, Opens m (VaultStore.openAtWithPassphrase path p) w store) ∨
    (∃ text, Opens m (VaultStore.openAtWithMnemonic path text) w store) ∨
    (∃ k, Opens m (VaultStore.openAtWithWrapKey path k) w store) →
      store.dataKey = dataKey ∧ store.body = s.entries

section

variable {m : Machine} (hm : m.Faultless) {path : Path} {w : Disk} {file : VaultFileV2}
  (hfs : w.fs path = some (.v2 file)) {passphrase : Str} {phrase : Option Str} {dataKey : Key}
  {body : VaultBody} (h : Holds file passphrase phrase dataKey body)

include hm hfs h

theorem opens_passphrase_iff (p : Str) (store : VaultStore) :
    Opens m (VaultStore.openAtWithPassphrase path p) w store ↔
      p = passphrase ∧ store = .opened path file dataKey body := by
  rw [opens_iff (VaultStore.openAtWithPassphrase_answers hm hfs p), h.load_iff]

theorem opens_mnemonic_iff [Bip39] (text : Str) (store : VaultStore) :
    Opens m (VaultStore.openAtWithMnemonic path text) w store ↔
      (∃ s, readMnemonic text = .ok s ∧ phrase = some s) ∧
        store = .opened path file dataKey body := by
  cases htext : readMnemonic text with
  | error e =>
    have hanswers : Fx.Answers m (VaultStore.openAtWithMnemonic path text) w (.error e) :=
      ⟨w, by simp [VaultStore.openAtWithMnemonic, htext, Fx.bind_run], .refl ∅ w⟩
    simp [opens_iff hanswers]
  | ok s =>
    rw [opens_iff (VaultStore.openAtWithMnemonic_answers hm hfs htext), h.mnemonic_iff]
    simp

theorem opens_wrapKey_iff (k : Key) (store : VaultStore) :
    Opens m (VaultStore.openAtWithWrapKey path k) w store ↔
      VaultStore.deriveWrapKeyContents passphrase (.v2 file) = .ok k ∧
        store = .opened path file dataKey body := by
  rw [opens_iff (VaultStore.openAtWithWrapKey_answers hm hfs k), h.wrapKey_iff]

end

/-- After any operations, the saved vault opens with what is in force in it. -/
theorem reachable_opensAs [Bip39] {path : Path} {s : Session} {v : Vault} {sv : InForce}
    (h : s.Reachable path v) (hsaved : v.saved = some sv) {m : Machine} (hm : m.Faultless) :
    OpensAs m path s.disk sv v.revoked := by
  have htracks := h.tracks
  have hfile := htracks.file
  rw [hsaved, optionRel_some_right] at hfile
  obtain ⟨_, hfs, file, rfl, hfile⟩ := hfile
  obtain ⟨dataKey, hholds⟩ := hfile.holds
  have hpass := opens_passphrase_iff hm hfs hholds
  have hmnemonic := opens_mnemonic_iff hm hfs hholds
  have hwrap := opens_wrapKey_iff hm hfs hholds
  refine ⟨fun p => ?_, fun text => ?_, fun k => ?_, fun k hk store hopens => ?_, dataKey,
    fun store hopens => ?_⟩
  · simp [hpass]
  · simp [hmnemonic]
  · obtain ⟨w', hrun, -⟩ := VaultStore.deriveWrapKey_answers hm hfs sv.passphrase
    simp [hwrap, hrun]
  · -- A revoked key was derived with another salt than the file's.
    exact htracks.gone k hk file hfs (hholds.saltId sv.passphrase ((hwrap k store).mp hopens).1)
  · have hstore : store = .opened path file dataKey sv.entries := by
      obtain ⟨p, h⟩ | ⟨text, h⟩ | ⟨k, h⟩ := hopens
      · exact ((hpass p store).mp h).2
      · exact ((hmnemonic text store).mp h).2
      · exact ((hwrap k store).mp h).2
    rw [hstore]
    exact ⟨rfl, rfl⟩

/-- A vault is created, a wrap key is cached, and the passphrase is changed to
itself and saved. -/
theorem reachable_opensAs_rekeyed :
    letI := onePhrase
    ∃ (s : Session) (v : Vault), s.Reachable vaultJson v ∧ v.revoked ≠ [] ∧
      OpensAs .quiet vaultJson s.disk ⟨['a'], none, ∅⟩ v.revoked := by
  let _ := onePhrase
  let disk : Disk := ⟨fun _ => none, 0, 0, fun _ => 0⟩
  have hempty : Session.Reachable vaultJson ⟨disk, fun _ => none⟩ .empty := .start rfl
  have hcreated := hempty.step .quiet 0 (.openPassphrase ['a'])
  have hcached := hcreated.step .quiet 0 (.deriveWrapKey ['a'])
  have hchanged := hcached.step .quiet 0 (.changePassphrase ['a'])
  have hsaved := hchanged.step .quiet 0 .save
  exact ⟨_, _, hsaved, by decide,
    reachable_opensAs hsaved (by decide) Machine.quiet_faultless⟩

end HearthVault
