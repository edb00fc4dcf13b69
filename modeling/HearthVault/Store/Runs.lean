/-
HearthVault.Store.Runs — what the programs of the store do when no file
operation meets a fault.

On such a machine a program is the function of the file contents it wraps:
opening answers what `Store.Sealing` computes from the bytes and changes
nothing (`openAtWithPassphrase_answers`), and `save` replaces the vault file
when it is still the one that was loaded (`save_run`).
-/
import HearthVault.Store.SealingTheorems
import HearthVault.Store.VaultStore

namespace HearthVault

open Files Symbolic

section

variable {m : Machine} (hm : m.Faultless) {path : Path} {w : Disk}

include hm

theorem acquire_answers : Fx.Answers m (acquire path) w (.ok ()) := by
  have hmkdir : Fx.Answers m (Fx.mkdir path.dir : Prog Unit) w (.ok ()) :=
    Fx.Answers.check hm _ _
  exact hmkdir.bind fun _ _ => Fx.Answers.check hm _ _

theorem underLock_answers {α : Type} {held : Bool} {x : Prog α} {r : Result α}
    (hx : ∀ v, w.Frame ∅ v → Fx.Answers m x v r) : Fx.Answers m (underLock held path x) w r := by
  cases held with
  | true => exact hx w (.refl ∅ w)
  | false => exact (acquire_answers hm).bind fun v hv => (hx v hv).releasing

/-- A program under the lock is the program, from a world with the same files. -/
theorem underLock_run {α : Type} (held : Bool) (path : Path) (x : Prog α) (w : Disk) :
    ∃ v, w.Frame ∅ v ∧ (underLock held path x).run m w = x.run m v := by
  cases held with
  | true => exact ⟨w, .refl ∅ w, rfl⟩
  | false =>
    obtain ⟨v, hlock, hv⟩ := @acquire_answers m hm path w
    refine ⟨v, hv, ?_⟩
    rw [underLock, if_neg (by simp), Fx.bind_run_ok hlock, Fx.releasing_run]

theorem readToString_answers {c : Contents} (h : w.fs path = some c)
    (htext : ∀ bytes, c ≠ .binary bytes) : Fx.Answers m (readToString path) w (.ok c) :=
  ⟨_, readToString_eq_ok.mpr ⟨hm.next _ _, h, htext, rfl⟩, (World.Frame.refl ∅ w).tick _⟩

namespace VaultStore

/-! ## Opening a v2 file -/

section

variable {file : VaultFileV2} (h : w.fs path = some (.v2 file))

include h

theorem loadV2_answers (passphrase : Str) : Fx.Answers m (loadV2 path passphrase) w
    (loadV2Contents path passphrase (.v2 file)) :=
  (readToString_answers hm h nofun).bind fun _ _ => Fx.Answers.ofResult

theorem openAtWithPassphrase_answers (passphrase : Str) :
    Fx.Answers m (openAtWithPassphrase path passphrase) w
      (loadV2Contents path passphrase (.v2 file)) := by
  refine (Fx.Answers.pathExists hm path).bind fun v hv => ?_
  have hfs : v.fs path = some (.v2 file) := by rw [hv.fs path (by simp), h]
  rw [h, Option.isSome_some, if_pos rfl]
  refine (readToString_answers hm hfs nofun).bind fun u hu => ?_
  refine Fx.Answers.bind (a := true) Fx.Answers.ofResult fun u' hu' => ?_
  refine (Fx.Answers.when nofun).bind fun u'' hu'' => loadV2_answers hm ?_ passphrase
  rw [hu''.fs path (by simp), hu'.fs path (by simp), hu.fs path (by simp), hfs]

theorem openAtWithMnemonic_answers [Bip39] {mnemonic phrase : Str}
    (hphrase : readMnemonic mnemonic = .ok phrase) :
    Fx.Answers m (openAtWithMnemonic path mnemonic) w
      (openMnemonicContents path phrase (.v2 file)) := by
  refine Fx.Answers.bind (a := phrase) ⟨w, by simp [hphrase], .refl _ _⟩ fun v hv => ?_
  have hfs : v.fs path = some (.v2 file) := by rw [hv.fs path (by simp), h]
  exact (readToString_answers hm hfs nofun).mapErr.bind fun _ _ => Fx.Answers.ofResult

theorem openAtWithWrapKey_answers (key : Key) : Fx.Answers m (openAtWithWrapKey path key) w
    (openWrapKeyContents path key (.v2 file)) :=
  (readToString_answers hm h nofun).bind fun _ _ => Fx.Answers.ofResult

theorem deriveWrapKey_answers (passphrase : Str) : Fx.Answers m (deriveWrapKey path passphrase) w
    (deriveWrapKeyContents passphrase (.v2 file)) :=
  (readToString_answers hm h nofun).bind fun _ _ => Fx.Answers.ofResult

end

theorem lockAndRefresh_answers {store : VaultStore} {c : Contents}
    (h : w.fs store.path = some c) (htext : ∀ bytes, c ≠ .binary bytes) :
    Fx.Answers m store.lockAndRefresh w (store.refresh c) := by
  refine (Fx.Answers.when fun _ => acquire_answers hm).bind fun v hv => ?_
  have hfs : v.fs store.path = some c := by rw [hv.fs _ (by simp), h]
  exact (readToString_answers hm hfs htext).mapErr.bind fun _ _ => Fx.Answers.ofResult

/-! ## Saving -/

/-- The check of `save`, answered from the file as it stands. -/
theorem checkUnchanged_answers (store : VaultStore) {msg : String} :
    Fx.Answers m
      (Fx.when store.loadedFp.isSome do
        let onDisk ← Fx.attempt (Fx.read store.path)
        Fx.ensure (store.unchanged onDisk.toOption) msg) w
      (if store.unchanged (w.fs store.path) then .ok () else bail msg) := by
  cases hfp : store.loadedFp with
  | none =>
    have htrue : store.unchanged (w.fs store.path) = true := by simp [unchanged, hfp]
    rw [htrue]
    exact Fx.Answers.when nofun
  | some fp =>
    have hread : ∃ r : Except String Contents, r.toOption = w.fs store.path ∧
        Fx.Answers m (Fx.attempt (Fx.read store.path)) w (.ok r) := by
      cases hfs : w.fs store.path with
      | none => exact ⟨_, rfl, (Fx.Answers.read_missing hm hfs).attempt_err⟩
      | some c => exact ⟨_, rfl, (Fx.Answers.read hm hfs).attempt⟩
    obtain ⟨r, hr, hread⟩ := hread
    simp only [Fx.when, Option.isSome_some, if_true]
    refine hread.bind fun v _ => ?_
    rw [hr]
    exact Fx.Answers.ofResult

/-- A save over the file that was loaded replaces it. -/
theorem save_run {store : VaultStore} (h : store.unchanged (w.fs store.path) = true) :
    ∃ w', store.save.run m w =
        (.ok { store with loadedFp := some ⟨.v2 (store.toFile w.rng)⟩ }, w') ∧
      w'.fs store.path = some (.v2 (store.toFile w.rng)) ∧
      (∀ q, q ∉ ({store.path, tmpPath store.path m.pid} : Set Path) → w'.fs q = w.fs q) ∧
      w'.rng = w.rng + 1 ∧ w'.ticks = w.ticks := by
  rw [save]
  obtain ⟨v₁, hv₁, hlock⟩ := underLock_run hm store.lock store.path _ w
  rw [hlock]
  have hfs : v₁.fs store.path = w.fs store.path := hv₁.fs _ (by simp)
  obtain ⟨v₂, hcheck, hv₂⟩ := checkUnchanged_answers hm (w := v₁) store
  rw [hfs, h, if_pos rfl] at hcheck
  obtain ⟨v₃, hmkdir, hv₃⟩ : Fx.Answers m (Fx.mkdir store.path.dir : Prog Unit) v₂ (.ok ()) :=
    Fx.Answers.check hm _ _
  have hv : w.Frame ∅ v₃ := (hv₁.trans hv₂).trans hv₃
  obtain ⟨w', hwrite, hw', hnew⟩ := writePrivate_run hm store.path
    (.v2 (store.toFile v₃.rng)) { v₃ with rng := v₃.rng + 1 }
  have hrandom : (Fx.random : Prog Nat).run m v₃ = (.ok v₃.rng, { v₃ with rng := v₃.rng + 1 }) :=
    rfl
  refine ⟨w', ?_, ?_, fun q hq => ?_, ?_, ?_⟩
  · rw [Fx.bind_run_ok hcheck, Fx.bind_run_ok hmkdir,
      Fx.bind_run_ok hrandom, Fx.bind_run_ok (Fx.mapErr_eq_ok.mpr hwrite), hv.rng]
    rfl
  · rw [hnew, hv.rng]
  · exact (hw'.fs q hq).trans (hv.fs q (by simp))
  · rw [hw'.rng, hv.rng]
  · exact hw'.ticks.trans hv.ticks

end VaultStore

end

end HearthVault
