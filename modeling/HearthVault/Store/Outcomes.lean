/-
HearthVault.Store.Outcomes — what the programs of the store may leave behind,
whatever faults they meet.

A program that only reads answers what the bytes of the vault file say, or
fails. `save` leaves the vault file as it was, or the file of the store in its
place (`VaultStore.Saved`). `open_at_with_passphrase` on a v2 vault or on no
file opens what is there, or creates a vault (`VaultStore.Created`); the
latter also over a vault, when the file system would not tell that it exists.
-/
import HearthVault.Store.SealingTheorems
import HearthVault.Store.VaultStore

namespace HearthVault

open Files Symbolic

variable {m : Machine} {path : Path} {w₀ : Disk}

/-! ## Reading -/

theorem acquire_meets {S : Set Path} :
    Fx.Meets m (w₀.Frame S) (acquire path) (fun _ => w₀.Frame S) (w₀.Frame S) :=
  Fx.Meets.bind (Fx.Meets.check fun _ h => h.tick _) fun _ => Fx.Meets.check fun _ h => h.tick _

theorem underLock_meets {α : Type} {S : Set Path} {held : Bool} {x : Prog α}
    {Q : α → Disk → Prop} {E : Disk → Prop} (hE : ∀ w, w₀.Frame S w → E w)
    (hx : Fx.Meets m (w₀.Frame S) x Q E) :
    Fx.Meets m (w₀.Frame S) (underLock held path x) Q E := by
  cases held with
  | true => exact hx
  | false =>
    exact (acquire_meets.weaken (fun _ h => h) (fun _ _ h => h) hE).bind fun _ => hx.releasing

theorem readToString_meets : Fx.Meets m (w₀.Frame ∅) (readToString path)
    (fun c w => w₀.Frame ∅ w ∧ w₀.fs path = some c) (w₀.Frame ∅) := by
  refine Fx.Meets.bind (Fx.Meets.read (by simp)) fun c => ?_
  cases c <;> first
    | exact Fx.Meets.pure fun _ h => h
    | exact Fx.Meets.ofResult fun _ h => h.1

/-- A program that reads the vault file and computes on what it read. -/
theorem readThen_meets {α : Type} {read : Prog Contents} {f : Contents → Result α}
    (hread : Fx.Meets m (w₀.Frame ∅) read (fun c w => w₀.Frame ∅ w ∧ w₀.fs path = some c)
      (w₀.Frame ∅)) :
    Fx.Meets m (w₀.Frame ∅) (do let c ← read; Fx.ofResult (f c))
      (fun a w => w₀.Frame ∅ w ∧ ∃ c, w₀.fs path = some c ∧ f c = .ok a) (w₀.Frame ∅) := by
  refine hread.bind fun c => Fx.Meets.ofResult fun w h => ?_
  cases hf : f c with
  | error e => exact h.1
  | ok a => exact ⟨h.1, c, h.2, hf⟩

namespace VaultStore

theorem loadV2_meets (passphrase : Str) : Fx.Meets m (w₀.Frame ∅) (loadV2 path passphrase)
    (fun store w => w₀.Frame ∅ w ∧
      ∃ c, w₀.fs path = some c ∧ loadV2Contents path passphrase c = .ok store) (w₀.Frame ∅) :=
  readThen_meets readToString_meets

theorem openAtWithMnemonic_meets [Bip39] (mnemonic : Str) :
    Fx.Meets m (w₀.Frame ∅) (openAtWithMnemonic path mnemonic)
      (fun store w => w₀.Frame ∅ w ∧ ∃ c phrase, w₀.fs path = some c ∧
        readMnemonic mnemonic = .ok phrase ∧ openMnemonicContents path phrase c = .ok store)
      (w₀.Frame ∅) := by
  unfold openAtWithMnemonic
  cases h : readMnemonic mnemonic with
  | error e => exact fun w hw => hw
  | ok phrase =>
    refine Fx.Meets.weaken (readThen_meets readToString_meets.mapErr) (fun _ hw => hw) ?_
      fun _ hw => hw
    rintro store w ⟨hw, c, hc, hstore⟩
    exact ⟨hw, c, phrase, hc, rfl, hstore⟩

theorem openAtWithWrapKey_meets (key : Key) :
    Fx.Meets m (w₀.Frame ∅) (openAtWithWrapKey path key)
      (fun store w => w₀.Frame ∅ w ∧
        ∃ c, w₀.fs path = some c ∧ openWrapKeyContents path key c = .ok store) (w₀.Frame ∅) :=
  readThen_meets readToString_meets

theorem deriveWrapKey_meets (passphrase : Str) :
    Fx.Meets m (w₀.Frame ∅) (deriveWrapKey path passphrase)
      (fun key w => w₀.Frame ∅ w ∧
        ∃ c, w₀.fs path = some c ∧ deriveWrapKeyContents passphrase c = .ok key) (w₀.Frame ∅) :=
  readThen_meets readToString_meets

theorem lockAndRefresh_meets (store : VaultStore) :
    Fx.Meets m (w₀.Frame ∅) store.lockAndRefresh
      (fun store' w => w₀.Frame ∅ w ∧
        ∃ c, w₀.fs store.path = some c ∧ store.refresh c = .ok store') (w₀.Frame ∅) := by
  refine Fx.Meets.bind (Q := fun _ => w₀.Frame ∅) ?_ fun _ =>
    readThen_meets readToString_meets.mapErr
  unfold Fx.when
  split
  · exact acquire_meets
  · exact Fx.Meets.pure fun _ h => h

/-! ## Saving -/

/-- The store has been saved over the file it was loaded from. -/
structure Saved (store : VaultStore) (w w' : Disk) : Prop where
  unchanged : store.unchanged (w.fs store.path) = true
  written : w'.fs store.path = some (.v2 (store.toFile w.rng))
  rng : w.rng < w'.rng

/-- The check of `save`: it passes only over the file that was loaded. -/
theorem checkUnchanged_meets (store : VaultStore) {msg : String} :
    Fx.Meets m (w₀.Frame ∅)
      (Fx.when store.loadedFp.isSome do
        let onDisk ← Fx.attempt (Fx.read store.path)
        Fx.ensure (store.unchanged onDisk.toOption) msg)
      (fun _ w => w₀.Frame ∅ w ∧ store.unchanged (w₀.fs store.path) = true) (w₀.Frame ∅) := by
  cases hfp : store.loadedFp with
  | none => exact Fx.Meets.pure fun w hw => ⟨hw, by simp [unchanged, hfp]⟩
  | some fp =>
    have hread : Fx.Meets m (w₀.Frame ∅) (Fx.attempt (Fx.read store.path))
        (fun r w => w₀.Frame ∅ w ∧ ∀ c, r = .ok c → w₀.fs store.path = some c) (w₀.Frame ∅) := by
      refine (Fx.Meets.read (by simp)).attempt.weaken (fun _ h => h) ?_ fun _ h => h
      rintro (e | c) w hw
      · exact ⟨hw, nofun⟩
      · refine ⟨hw.1, ?_⟩
        rintro _ ⟨⟩
        exact hw.2
    refine hread.bind fun r => Fx.Meets.ensure (fun w hw hsame => ⟨hw.1, ?_⟩) fun _ hw => hw.1
    cases r with
    | error e => simp [unchanged, hfp, Except.toOption] at hsame
    | ok c => rwa [hw.2 c rfl]

/-- `save` under any faults. -/
theorem save_meets (store : VaultStore) :
    Fx.Meets m (w₀.Frame ∅) store.save
      (fun store' w => store.Saved w₀ w ∧
        store' = { store with loadedFp := some ⟨.v2 (store.toFile w₀.rng)⟩ })
      (fun w => w₀.Kept store.path w ∨ store.Saved w₀ w) := by
  have hkept : ∀ w, w₀.Frame ∅ w → w₀.Kept store.path w ∨ store.Saved w₀ w :=
    fun w h => .inl (h.kept (by simp))
  refine underLock_meets hkept ?_
  refine Fx.Meets.bind ((checkUnchanged_meets store).weaken (fun _ h => h) (fun _ _ h => h) hkept)
    fun _ => Fx.Meets.fact fun hsame => ?_
  refine Fx.Meets.bind ((Fx.Meets.check fun _ h => h.tick _).weaken (fun _ h => h)
    (fun _ _ h => h) hkept) fun _ => Fx.Meets.random ?_
  have hsaved : ∀ w, World.Frame {store.path, tmpPath store.path m.pid}
      { w₀ with rng := w₀.rng + 1 } w → w.fs store.path = some (.v2 (store.toFile w₀.rng)) →
      store.Saved w₀ w :=
    fun w h hfs => ⟨hsame, hfs, by rw [h.rng]; simp⟩
  refine Fx.Meets.bind (Q := fun _ => store.Saved w₀) ?_ fun _ => Fx.Meets.pure fun w h => ⟨h, rfl⟩
  refine ((writePrivate_atomic m store.path _ _).weaken (fun _ h => h) (fun _ w h => ?_)
    fun w h => ?_).mapErr
  · exact hsaved w h.1 h.2
  · obtain hold | hnew := h.2
    · exact .inl ⟨hold, by rw [h.1.rng]; simp⟩
    · exact .inr (hsaved w h.1 hnew)

/-! ## Opening or creating -/

/-- The vault that creation makes of the random values from `n` on. -/
def created (path : Path) (passphrase : Str) (n : Nat) : VaultStore where
  path := path
  kdf := .default
  wrapPassphrase := ⟨.encoded (Octets.random32 (n + 1)),
    sealed (.argon2id passphrase (Octets.random32 (n + 1)) .default) (n + 2) aadWrapPassphrase
      (.key (.random n))⟩
  wrapRecovery := none
  dataKey := .random n
  body := ∅
  lock := true
  loadedFp := none

theorem fresh_eq_created (path : Path) (passphrase : Str) (n : Nat) :
    fresh path passphrase n (n + 1) (n + 2) = .ok (created path passphrase n) := by
  rw [fresh, wrapSlot_eq_ok.mpr ⟨KdfParams.default_validate, rfl⟩]
  rfl

/-- A vault has been created. -/
structure Created (path : Path) (passphrase : Str) (w w' : Disk) : Prop where
  written : w'.fs path = some (.v2 ((created path passphrase w.rng).toFile (w.rng + 3)))
  rng : w.rng + 3 < w'.rng

theorem createNew_meets (passphrase : Str) :
    Fx.Meets m (w₀.Frame ∅) (createNew path passphrase)
      (fun store w => Created path passphrase w₀ w ∧ store = opened path
        ((created path passphrase w₀.rng).toFile (w₀.rng + 3)) (.random w₀.rng) ∅)
      (fun w => w₀.Kept path w ∨ Created path passphrase w₀ w) := by
  refine Fx.Meets.random (Fx.Meets.random (Fx.Meets.random ?_))
  rw [fresh_eq_created path passphrase w₀.rng, Fx.ofResult_ok_bind]
  refine Fx.Meets.bind ((save_meets (created path passphrase w₀.rng)).weaken (fun _ h => h)
    (fun _ _ h => h) fun w h => ?_) fun store => Fx.Meets.pure fun w h => ?_
  · obtain h | h := h
    · exact .inl ⟨h.fs, le_trans (by simp [Nat.add_assoc]) h.rng⟩
    · exact .inr ⟨h.written, h.rng⟩
  · obtain ⟨h, rfl⟩ := h
    exact ⟨⟨h.written, h.rng⟩, rfl⟩

/-- The store of a vault that was there, or of the vault just created. -/
def OpenedBy (path : Path) (passphrase : Str) (w : Disk) (store : VaultStore) (w' : Disk) : Prop :=
  (w.Kept path w' ∧ ∃ c, w.fs path = some c ∧ loadV2Contents path passphrase c = .ok store) ∨
    (Created path passphrase w w' ∧ store = opened path
      ((created path passphrase w.rng).toFile (w.rng + 3)) (.random w.rng) ∅)

/-- `open_at_with_passphrase` of a v2 vault or of none, under any faults. -/
theorem openAtWithPassphrase_meets (passphrase : Str)
    (hv2 : ∀ c, w₀.fs path = some c → ∃ file, c = .v2 file) :
    Fx.Meets m (w₀.Frame ∅) (openAtWithPassphrase path passphrase) (OpenedBy path passphrase w₀)
      (fun w => w₀.Kept path w ∨ Created path passphrase w₀ w) := by
  have hkept : ∀ w, w₀.Frame ∅ w → w₀.Kept path w ∨ Created path passphrase w₀ w :=
    fun w h => .inl (h.kept (by simp))
  have hload : Fx.Meets m (w₀.Frame ∅) (loadV2 path passphrase) (OpenedBy path passphrase w₀)
      (fun w => w₀.Kept path w ∨ Created path passphrase w₀ w) :=
    (loadV2_meets passphrase).weaken (fun _ h => h) (fun _ _ h => .inl ⟨h.1.kept (by simp), h.2⟩)
      hkept
  refine Fx.Meets.bind (Fx.Meets.pathExists.weaken (fun _ h => h) (fun _ _ h => h) hkept)
    fun existed => ?_
  cases existed with
  | true =>
    refine Fx.Meets.bind (readToString_meets.weaken (fun _ h => h) (fun _ _ h => h) hkept)
      fun c => Fx.Meets.fact fun hc => ?_
    obtain ⟨file, rfl⟩ := hv2 c hc
    exact hload
  | false =>
    refine Fx.Meets.bind (acquire_meets.weaken (fun _ h => h) (fun _ _ h => h) hkept) fun _ => ?_
    refine Fx.Meets.bind (Fx.Meets.pathExists.weaken (fun _ h => h) (fun _ _ h => h) hkept)
      fun existed => ?_
    cases existed with
    | true => exact hload
    | false =>
      exact ((createNew_meets passphrase).weaken (fun _ h => h) (fun _ _ h => .inr h)
        fun _ h => h).releasing

end VaultStore

end HearthVault
