/-
HearthVault.Store.Versions — the versions of a vault file over a run.

`Session.Recorded` is `Session.Reachable` with a record of every file that was
ever at the vault path: what was in force in it when it was written, and its
generation, the number of times that a vault had been created by then. Saving
never draws a data key and creating always does, so the generation of a
version is its data key (`History.generation`).
-/
import HearthVault.Store.SessionTheorems

namespace HearthVault

open Files Symbolic

/-! ## The record -/

/-- A file that was at the vault path. -/
structure Version where
  contents : Contents
  inForce : InForce
  generation : Nat

/-- The operation writes the vault file only by creating a vault. -/
def Op.creates : Op → Bool
  | .openPassphrase _ => true
  | _ => false

/-- The generation of the next version, the latest coming first. -/
def nextGeneration (op : Op) : List Version → Nat
  | [] => 0
  | latest :: _ => if op.creates then latest.generation + 1 else latest.generation

/-- What an operation adds to the record. -/
def record (op : Op) (wrote : Bool) (contents : Option Contents) (saved : Option InForce)
    (past : List Version) : List Version :=
  match wrote, contents, saved with
  | true, some contents, some inForce => ⟨contents, inForce, nextGeneration op past⟩ :: past
  | _, _, _ => past

/-- The sessions that any operations lead to from a disk without a vault, what
their users go by then, and the versions there have been. -/
inductive Session.Recorded [Bip39] (path : Path) : Session → Vault → List Version → Prop
  | start {w : Disk} (h : w.fs path = none) :
    Recorded path ⟨w, fun _ => none⟩ .empty []
  | step {s : Session} {v : Vault} {past : List Version} (h : Recorded path s v past)
      (m : Machine) (i : Nat) (op : Op) :
    Recorded path (s.step path m i op).1
      (v.after i op (s.wrote path (s.step path m i op).1) (s.step path m i op).2)
      (record op (s.wrote path (s.step path m i op).1) ((s.step path m i op).1.disk.fs path)
        (v.after i op (s.wrote path (s.step path m i op).1) (s.step path m i op).2).saved past)

/-- A record takes nothing away from a run. -/
theorem Session.Recorded.reachable [Bip39] {path : Path} {s : Session} {v : Vault}
    {past : List Version} (h : s.Recorded path v past) : s.Reachable path v := by
  induction h with
  | start hfs => exact .start hfs
  | step _ m i op ih => exact ih.step m i op

/-! ## The key of a version -/

/-- The key that the entries of a file are sealed under. -/
def sealingKey : Contents → Option Key
  | .v2 file => match file.vault with
    | .encoded c => some c.key
    | .malformed _ => none
  | _ => none

@[simp] theorem sealingKey_toFile (store : VaultStore) (n : Nat) :
    sealingKey (.v2 (store.toFile n)) = some store.dataKey := rfl

/-- The key that a vault is sealed with is its data key. -/
theorem Holds.sealingKey {file : VaultFileV2} {passphrase : Str} {phrase : Option Str}
    {dataKey : Key} {body : VaultBody} (h : Holds file passphrase phrase dataKey body) :
    sealingKey (.v2 file) = some dataKey := by
  obtain ⟨nonce, hvault⟩ := h.vault
  simp [HearthVault.sealingKey, hvault, sealed]

/-! ## What an operation does to the file and the stores -/

/-- The store has the data key and the digest of one that was open before, or
those of the vault file. -/
def Session.Knows (path : Path) (s : Session) (store : VaultStore) : Prop :=
  (∃ i old, s.stores i = some old ∧ store.dataKey = old.dataKey ∧
    store.loadedFp = old.loadedFp) ∨
  ∃ file, s.disk.fs path = some (.v2 file) ∧ sealingKey (.v2 file) = some store.dataKey ∧
    store.loadedFp = some ⟨.v2 file⟩

/-- What one operation does: it leaves the file as it is, creates a vault, or
replaces the file that an open store was loaded from by that store. -/
inductive Session.Does (path : Path) (s : Session) (op : Op) (s' : Session) : Prop
  | kept (hdisk : s.disk.Kept path s'.disk)
      (hstores : ∀ i store, s'.stores i = some store → s.Knows path store)
  | created (file : VaultFileV2) (n : Nat) (hop : op.creates = true)
      (hfs : s'.disk.fs path = some (.v2 file)) (hkey : sealingKey (.v2 file) = some (.random n))
      (hn : s.disk.rng ≤ n ∧ n < s'.disk.rng) (hnonce : s.disk.rng ≤ file.nonce)
      (hstores : ∀ i store, s'.stores i = some store → s.Knows path store ∨
        (store.dataKey = .random n ∧ store.loadedFp = some ⟨.v2 file⟩))
  | saved (store : VaultStore) (hop : op.creates = false) (hold : ∃ i, s.stores i = some store)
      (hsaved : store.Saved s.disk s'.disk)
      (hstores : ∀ i store', s'.stores i = some store' → s.Knows path store' ∨
        (store'.dataKey = store.dataKey ∧
          store'.loadedFp = some ⟨.v2 (store.toFile s.disk.rng)⟩))

section

variable {path : Path} {s : Session}

/-- What a store of the session was loaded from is known. -/
theorem Session.knows_self {i : Nat} {store : VaultStore} (h : s.stores i = some store) :
    s.Knows path store :=
  .inl ⟨i, store, h, rfl, rfl⟩

/-- A property of the stores when the handle of one gets another, or none. -/
theorem Session.update_stores (P : VaultStore → Prop) (i : Nat) (store? : Option VaultStore)
    (hold : ∀ store, s.Knows path store → P store) (hnew : ∀ store ∈ store?, P store)
    (j : Nat) (store : VaultStore) (h : Function.update s.stores i store? j = some store) :
    P store := by
  by_cases hj : j = i
  · subst hj
    exact hnew store (by simpa using h)
  · rw [Function.update_of_ne hj] at h
    exact hold store (knows_self h)

section

variable {op : Op} {w : Disk} {i : Nat} {store? : Option VaultStore}

/-- A call that leaves the file and puts back a store that knew it. -/
theorem Session.Does.put (hw : s.disk.Kept path w)
    (hnew : ∀ store ∈ store?, s.Knows path store) :
    s.Does path op ⟨w, Function.update s.stores i store?⟩ :=
  .kept hw (s.update_stores (s.Knows path) i store? (fun _ h => h) hnew)

/-- A call that fails and drops its store. -/
theorem Session.Does.drop (hw : s.disk.Kept path w) :
    s.Does path op ⟨w, Function.update s.stores i none⟩ :=
  .put hw (by simp)

/-- A call that keeps every store. -/
theorem Session.Does.stay (hw : s.disk.Kept path w) : s.Does path op ⟨w, s.stores⟩ :=
  .kept hw fun _ _ h => knows_self h

end

namespace Tracks

variable {v : Vault} (h : Tracks path s v) {m : Machine} {i : Nat} {op : Op}

omit h in
/-- A store that was read from the file at the path knows it. -/
theorem FromFile.knows {store : VaultStore} (h : FromFile path s v store) :
    s.Knows path store := by
  obtain ⟨file, sv, dataKey, hfs, -, hholds, rfl⟩ := h
  exact .inr ⟨file, hfs, hholds.sealingKey, rfl⟩

omit h in
/-- An opening that writes nothing. -/
theorem opening_does {x : Prog VaultStore}
    (hx : Fx.Meets m (s.disk.Frame ∅) x (fun store w => s.disk.Frame ∅ w ∧ FromFile path s v store)
      (s.disk.Frame ∅)) :
    s.Does path op (s.opening i (x.run m s.disk)).1 := by
  have hrun := hx s.disk (.refl ∅ s.disk)
  rcases hr : x.run m s.disk with ⟨r, w⟩
  rw [hr] at hrun
  cases r with
  | error e => exact .drop (hrun.kept (by simp))
  | ok store => exact .put (hrun.1.kept (by simp)) (by simpa using hrun.2.knows)

omit h in
/-- A method that does not save. -/
theorem method_does {α : Type} {call : VaultStore → Prog α} {store' : α → VaultStore}
    {answer : α → Answer}
    (hcall : ∀ store, s.stores i = some store → Fx.Meets m (s.disk.Frame ∅) (call store)
      (fun a w => s.disk.Kept path w ∧ s.Knows path (store' a)) (s.disk.Kept path)) :
    s.Does path op (s.method m i call store' answer).1 := by
  unfold Session.method
  cases hs : s.stores i with
  | none => exact .stay ⟨rfl, le_rfl⟩
  | some store =>
    have hrun := hcall store hs s.disk (.refl ∅ s.disk)
    dsimp only
    rcases hr : (call store).run m s.disk with ⟨(_ | _ | _) | a, w⟩ <;> rw [hr] at hrun
    · exact .stay hrun
    · exact .drop hrun
    · exact .drop hrun
    · exact .put hrun.1 (by simpa using hrun.2)

include h

/-- Opening with a passphrase is the only opening that may write: it may create
the vault. -/
theorem openPassphrase_does [Bip39] (passphrase : Str) :
    s.Does path (.openPassphrase passphrase)
      (s.step path m i (.openPassphrase passphrase)).1 := by
  have hrun := VaultStore.openAtWithPassphrase_meets (m := m) passphrase h.v2 s.disk
    (.refl ∅ s.disk)
  have hcreated : ∀ {w : Disk}, VaultStore.Created path passphrase s.disk w →
      ∀ store?, (∀ store ∈ store?, store.dataKey = .random s.disk.rng ∧ store.loadedFp =
        some ⟨.v2 ((VaultStore.created path passphrase s.disk.rng).toFile (s.disk.rng + 3))⟩) →
      s.Does path (.openPassphrase passphrase) ⟨w, Function.update s.stores i store?⟩ :=
    fun hw store? hstore => .created _ s.disk.rng rfl hw.written rfl
      ⟨le_rfl, (Nat.le_add_right _ 3).trans_lt hw.rng⟩ (Nat.le_add_right _ 3)
      (s.update_stores _ i store? (fun _ hk => .inl hk) fun store hs => .inr (hstore store hs))
  simp only [Session.step]
  rcases hr : (VaultStore.openAtWithPassphrase path passphrase).run m s.disk with ⟨_ | store, w⟩ <;>
    rw [hr] at hrun <;> simp only [Session.opening]
  · obtain hkept | hw := hrun
    · exact .drop hkept
    · exact hcreated hw none (by simp)
  · obtain ⟨hkept, c, hc, hload⟩ | ⟨hw, rfl⟩ := hrun
    · obtain ⟨file, sv, dataKey, rfl, hsaved, hholds⟩ := h.read hc
      obtain ⟨-, rfl⟩ := (hholds.load_iff path _ _).mp hload
      refine .put hkept fun store hs => ?_
      obtain rfl := Option.mem_some.mp hs
      exact .inr ⟨file, hc, hholds.sealingKey, rfl⟩
    · refine hcreated hw _ fun store hs => ?_
      obtain rfl := Option.mem_some.mp hs
      exact ⟨rfl, rfl⟩

/-- A save writes the file of a store that knew what it overwrites. -/
theorem save_does [Bip39] : s.Does path .save (s.step path m i .save).1 := by
  simp only [Session.step, Session.method]
  cases hs : s.stores i with
  | none => exact .stay ⟨rfl, le_rfl⟩
  | some store =>
    have hrel := h.stores i
    rw [hs, optionRel_some_left] at hrel
    obtain ⟨sv, hsv, hstore⟩ := hrel
    obtain rfl := hstore.path
    have hrun := VaultStore.save_meets (m := m) store s.disk (.refl ∅ s.disk)
    have hsaved : ∀ {w : Disk}, store.Saved s.disk w → ∀ store?,
        (∀ store' ∈ store?, s.Knows store.path store' ∨ (store'.dataKey = store.dataKey ∧
          store'.loadedFp = some ⟨.v2 (store.toFile s.disk.rng)⟩)) →
        s.Does store.path .save ⟨w, Function.update s.stores i store?⟩ :=
      fun hw store? hstore => .saved store rfl ⟨i, hs⟩ hw
        (s.update_stores _ i store? (fun _ hk => .inl hk) hstore)
    dsimp only
    rcases hr : store.save.run m s.disk with ⟨(_ | _ | _) | store', w⟩ <;> rw [hr] at hrun
    · obtain hkept | hw := hrun
      · exact .stay hkept
      · have hsame := hsaved hw (some store) (by simpa using .inl (Session.knows_self hs))
        rwa [← hs, Function.update_eq_self] at hsame
    · obtain hkept | hw := hrun
      · exact .drop hkept
      · exact hsaved hw none (by simp)
    · obtain hkept | hw := hrun
      · exact .drop hkept
      · exact hsaved hw none (by simp)
    · obtain ⟨hw, rfl⟩ := hrun
      exact hsaved hw _ (by simp)

/-- What one operation does. -/
theorem step_does [Bip39] (m : Machine) (i : Nat) (op : Op) :
    s.Does path op (s.step path m i op).1 := by
  cases op with
  | openPassphrase passphrase => exact h.openPassphrase_does passphrase
  | openMnemonic mnemonic =>
    refine opening_does (v := v) ((VaultStore.openAtWithMnemonic_meets mnemonic).weaken
      (fun _ hw => hw) ?_ fun _ hw => hw)
    intro store w hw
    obtain ⟨hframe, c, phrase, hc, -, hopen⟩ := hw
    obtain ⟨file, sv, dataKey, rfl, hsaved, hholds⟩ := h.read hc
    exact ⟨hframe, file, sv, dataKey, hc, hsaved, hholds,
      ((hholds.mnemonic_iff path _ _).mp hopen).2⟩
  | openWrapKey wrapKey =>
    refine opening_does (v := v) ((VaultStore.openAtWithWrapKey_meets wrapKey).weaken
      (fun _ hw => hw) ?_ fun _ hw => hw)
    intro store w hw
    obtain ⟨hframe, c, hc, hopen⟩ := hw
    obtain ⟨file, sv, dataKey, rfl, hsaved, hholds⟩ := h.read hc
    exact ⟨hframe, file, sv, dataKey, hc, hsaved, hholds,
      ((hholds.wrapKey_iff path _ _).mp hopen).2⟩
  | deriveWrapKey passphrase =>
    have hrun := @VaultStore.deriveWrapKey_meets m path s.disk passphrase s.disk (.refl ∅ s.disk)
    simp only [Session.step]
    rcases hr : (VaultStore.deriveWrapKey path passphrase).run m s.disk with ⟨_ | k, w⟩ <;>
      rw [hr] at hrun
    · exact .stay (hrun.kept (by simp))
    · exact .stay (hrun.1.kept (by simp))
  | edit f =>
    refine method_does fun store hs => Fx.Meets.ofResult fun w hw => ?_
    have hkept := hw.kept (p := path) (by simp)
    cases hedit : store.onBody f with
    | error e => exact hkept
    | ok store' =>
      simp only [VaultStore.onBody, result_bind_eq_ok] at hedit
      obtain ⟨body, -, ⟨⟩⟩ := hedit
      exact ⟨hkept, .inl ⟨i, store, hs, rfl, rfl⟩⟩
  | changePassphrase passphrase =>
    refine method_does fun store hs => ?_
    refine Fx.Meets.random (Fx.Meets.random (Fx.Meets.ofResult fun w hw => ?_))
    have hkept : s.disk.Kept path w := ⟨hw.fs path (by simp), by simp [hw.rng, Nat.add_assoc]⟩
    cases hwrap : store.rewrapPassphrase passphrase s.disk.rng (s.disk.rng + 1) with
    | error e => exact hkept
    | ok store' =>
      simp only [VaultStore.rewrapPassphrase, result_bind_eq_ok] at hwrap
      obtain ⟨slot, -, ⟨⟩⟩ := hwrap
      exact ⟨hkept, .inl ⟨i, store, hs, rfl, rfl⟩⟩
  | newRecoveryKey =>
    refine method_does fun store hs => ?_
    refine Fx.Meets.random (Fx.Meets.random (Fx.Meets.random ?_))
    refine Fx.Meets.bind (Q := fun store' w => s.disk.Kept path w ∧
      s.Knows path store') (Fx.Meets.ofResult fun w hw => ?_)
      fun store' => Fx.Meets.pure fun w hw => hw
    have hkept : s.disk.Kept path w := ⟨hw.fs path (by simp), by simp [hw.rng, Nat.add_assoc]⟩
    split
    · rename_i store' hwrap
      simp only [VaultStore.rewrapRecovery, result_bind_eq_ok] at hwrap
      obtain ⟨slot, -, ⟨⟩⟩ := hwrap
      exact ⟨hkept, .inl ⟨i, store, hs, rfl, rfl⟩⟩
    · exact hkept
  | refresh =>
    refine method_does fun store hs => (VaultStore.lockAndRefresh_meets store).weaken
      (fun _ hw => hw) ?_ fun _ hw => hw.kept (by simp)
    intro store' w hw
    obtain ⟨hframe, c, hc, hrefresh⟩ := hw
    have hrel := h.stores i
    rw [hs, optionRel_some_left] at hrel
    obtain ⟨sv, -, hstore⟩ := hrel
    rw [hstore.path] at hc
    obtain ⟨file, sv', dataKey, rfl, hsaved, hholds⟩ := h.read hc
    obtain ⟨-, rfl⟩ := (hholds.refresh_iff store store').mp hrefresh
    exact ⟨hframe.kept (by simp), .inr ⟨file, hc, hholds.sealingKey, rfl⟩⟩
  | save => exact h.save_does
  | close => exact .drop ⟨rfl, le_rfl⟩

end Tracks

/-! ## Generations -/

/-- The versions of a run. The latest is the vault file; each holds what was
in force in it, under a data key of its generation; and a store that could be
saved has the data key of the vault file. -/
structure History (path : Path) (s : Session) (past : List Version) : Prop where
  file : s.disk.fs path = past.head?.map (·.contents)
  holds : ∀ x ∈ past, ∃ file n, x.contents = .v2 file ∧ n < s.disk.rng ∧
    Holds file x.inForce.passphrase x.inForce.phrase (.random n) x.inForce.entries
  generation : ∀ x ∈ past, ∀ y ∈ past,
    sealingKey x.contents = sealingKey y.contents ↔ x.generation = y.generation
  latest : ∀ x ∈ past, ∀ y ∈ past.head?, x.generation ≤ y.generation
  stores : ∀ i store file, s.stores i = some store → s.disk.fs path = some (.v2 file) →
    store.loadedFp = some ⟨.v2 file⟩ → sealingKey (.v2 file) = some store.dataKey

/-- What is known was written before, so its nonce has been drawn. -/
theorem Tracks.knows_nonce {v : Vault} (h : Tracks path s v) {store : VaultStore}
    (hknows : s.Knows path store) :
    ∃ file, store.loadedFp = some ⟨.v2 file⟩ ∧ file.nonce < s.disk.rng := by
  obtain ⟨i, old, hold, -, hfp⟩ | ⟨file, hfs, -, hfp⟩ := hknows
  · have hrel := h.stores i
    rw [hold, optionRel_some_left] at hrel
    obtain ⟨sv, -, hstore⟩ := hrel
    rw [hfp]
    exact hstore.loaded
  · have hfile := h.file
    rw [hfs, optionRel_some_left] at hfile
    obtain ⟨sv, -, _, ⟨⟩, hfile⟩ := hfile
    exact ⟨file, hfp, hfile.nonce⟩

namespace History

variable {past : List Version} {s' : Session} {v v' : Vault} {op : Op}

/-- The file stays as it is. -/
theorem kept (h : History path s past) (hdisk : s.disk.Kept path s'.disk)
    (hstores : ∀ i store, s'.stores i = some store → s.Knows path store) :
    History path s' past where
  file := hdisk.fs.trans h.file
  holds x hx := by
    obtain ⟨file, n, hfile, hn, hholds⟩ := h.holds x hx
    exact ⟨file, n, hfile, hn.trans_le hdisk.rng, hholds⟩
  generation := h.generation
  latest := h.latest
  stores i store file hs hfs hfp := by
    rw [hdisk.fs] at hfs
    obtain ⟨j, old, hold, hkey, holdfp⟩ | ⟨file', hfs', hkey, hfp'⟩ := hstores i store hs
    · rw [hkey]
      exact h.stores j old file hold hfs (holdfp ▸ hfp)
    · rw [hfs] at hfs'
      cases hfs'
      exact hkey

/-- A new version, written with a nonce just drawn. -/
theorem written (h : History path s past) (ht : Tracks path s v) {file : VaultFileV2} {n g : Nat}
    {sv : InForce} (hfs : s'.disk.fs path = some (.v2 file)) (hn : n < s'.disk.rng)
    (hrng : s.disk.rng ≤ s'.disk.rng) (hnonce : s.disk.rng ≤ file.nonce)
    (hholds : Holds file sv.passphrase sv.phrase (.random n) sv.entries)
    (hgeneration : ∀ x ∈ past, sealingKey x.contents = some (.random n) ↔ x.generation = g)
    (hlatest : ∀ x ∈ past, x.generation ≤ g)
    (hstores : ∀ i store, s'.stores i = some store → s.Knows path store ∨
      (store.dataKey = .random n ∧ store.loadedFp = some ⟨.v2 file⟩)) :
    History path s' (⟨.v2 file, sv, g⟩ :: past) where
  file := hfs
  holds x hx := by
    obtain rfl | hx := List.mem_cons.mp hx
    · exact ⟨file, n, rfl, hn, hholds⟩
    · obtain ⟨file', n', hfile', hn', hholds'⟩ := h.holds x hx
      exact ⟨file', n', hfile', hn'.trans_le hrng, hholds'⟩
  generation x hx y hy := by
    have hnew : sealingKey (.v2 file) = some (.random n) := hholds.sealingKey
    obtain rfl | hx := List.mem_cons.mp hx
    · obtain rfl | hy := List.mem_cons.mp hy
      · simp
      · rw [hnew, eq_comm, eq_comm (b := y.generation)]
        exact hgeneration y hy
    · obtain rfl | hy := List.mem_cons.mp hy
      · rw [hnew]
        exact hgeneration x hx
      · exact h.generation x hx y hy
  latest x hx y hy := by
    obtain rfl : _ = y := by simpa using hy
    obtain rfl | hx := List.mem_cons.mp hx
    · rfl
    · exact hlatest x hx
  stores i store file' hs hfs' hfp := by
    rw [hfs] at hfs'
    cases hfs'
    obtain hknows | ⟨hkey, -⟩ := hstores i store hs
    · -- What was open before was loaded from an older file.
      obtain ⟨old, hold, hlt⟩ := ht.knows_nonce hknows
      rw [hfp] at hold
      cases hold
      omega
    · rw [hkey]
      exact hholds.sealingKey

/-- The data key of a saved store is that of the version it replaces. -/
theorem saved_key (h : History path s past) (ht : Tracks path s v) {store : VaultStore}
    (hold : ∃ i, s.stores i = some store) (hsaved : store.Saved s.disk s'.disk) :
    store.path = path ∧ ∃ latest rest, past = latest :: rest ∧
      sealingKey latest.contents = some store.dataKey := by
  obtain ⟨i, hs⟩ := hold
  have hrel := ht.stores i
  rw [hs, optionRel_some_left] at hrel
  obtain ⟨sv, -, hstore⟩ := hrel
  obtain ⟨file, hfp, -⟩ := hstore.loaded
  have hunchanged := hsaved.unchanged
  rw [hstore.path] at hunchanged
  have hfs : s.disk.fs path = some (.v2 file) := by
    cases hc : s.disk.fs path with
    | none => simp [VaultStore.unchanged, hfp, hc] at hunchanged
    | some c => simpa [VaultStore.unchanged, hfp, hc] using hunchanged
  have hkey := h.stores i store file hs hfs hfp
  rw [h.file] at hfs
  cases past with
  | nil => simp at hfs
  | cons latest rest =>
    simp only [List.head?_cons, Option.map_some, Option.some.injEq] at hfs
    exact ⟨hstore.path, latest, rest, rfl, hfs ▸ hkey⟩

/-- One call adds at most one version to the history. -/
theorem step (h : History path s past) (ht : Tracks path s v) (ht' : Tracks path s' v')
    (hdoes : s.Does path op s') :
    History path s' (record op (s.wrote path s') (s'.disk.fs path) v'.saved past) := by
  -- The file that was written holds what is in force now.
  have hnew : ∀ {file : VaultFileV2}, s'.disk.fs path = some (.v2 file) →
      s.disk.rng ≤ file.nonce → s.wrote path s' = true ∧ ∃ sv, v'.saved = some sv ∧
        ∀ key, sealingKey (.v2 file) = some key →
          Holds file sv.passphrase sv.phrase key sv.entries := by
    intro file hfs hnonce
    have hfile := ht'.file
    rw [hfs, optionRel_some_left] at hfile
    obtain ⟨sv, hsaved, _, ⟨⟩, hfile⟩ := hfile
    obtain ⟨dataKey, hholds⟩ := hfile.holds
    refine ⟨?_, sv, hsaved, fun key hkey => ?_⟩
    · simp only [Session.wrote, decide_eq_true_eq, hfs]
      intro heq
      have hold := ht.file
      rw [← heq, optionRel_some_left] at hold
      obtain ⟨_, -, _, ⟨⟩, hold⟩ := hold
      have := hold.nonce
      omega
    · rw [hholds.sealingKey] at hkey
      cases hkey
      exact hholds
  cases hdoes with
  | kept hdisk hstores =>
    have hwrote : s.wrote path s' = false := by simp [Session.wrote, hdisk.fs]
    rw [hwrote]
    exact h.kept hdisk hstores
  | created file n hop hfs hkey hn hnonce hstores =>
    obtain ⟨hwrote, sv, hsaved, hholds⟩ := hnew hfs hnonce
    rw [hwrote, hfs, hsaved]
    refine h.written ht hfs hn.2 (hn.1.trans hn.2.le) hnonce (hholds _ hkey) (fun x hx => ?_)
      (fun x hx => ?_) hstores
    · obtain ⟨file', n', hfile', hn', hholds'⟩ := h.holds x hx
      have hlt : n' < n := hn'.trans_le hn.1
      cases past with
      | nil => simp at hx
      | cons latest rest =>
        have hle := h.latest x hx latest rfl
        rw [hfile', hholds'.sealingKey, nextGeneration, hop, if_pos rfl]
        simp only [Option.some.injEq, Key.random.injEq]
        omega
    · cases past with
      | nil => simp at hx
      | cons latest rest =>
        have hle := h.latest x hx latest rfl
        rw [nextGeneration, hop, if_pos rfl]
        omega
  | saved store hop hold hw hstores =>
    obtain ⟨hpath, latest, rest, rfl, hkey⟩ := h.saved_key ht hold hw
    have hfs : s'.disk.fs path = some (.v2 (store.toFile s.disk.rng)) := hpath ▸ hw.written
    obtain ⟨hwrote, sv, hsaved, hholds⟩ := hnew hfs (by simp)
    obtain ⟨file', n, hfile', hn, hholds'⟩ := h.holds latest (by simp)
    have hrandom : store.dataKey = .random n := by
      rw [hfile', hholds'.sealingKey, Option.some.injEq] at hkey
      exact hkey.symm
    rw [hwrote, hfs, hsaved]
    have hg : nextGeneration op (latest :: rest) = latest.generation := by
      simp [nextGeneration, hop]
    refine h.written ht hfs (hn.trans hw.rng) hw.rng.le (by simp)
      (hrandom ▸ hholds store.dataKey rfl) (fun x hx => ?_) (fun x hx => ?_)
      fun i store' hs => ?_
    · rw [hg, ← h.generation x hx latest (by simp), hkey, hrandom]
    · rw [hg]
      exact h.latest x hx latest rfl
    · rw [← hrandom]
      exact hstores i store' hs

end History

end

/-- The versions of any run have these properties. -/
theorem Session.Recorded.history [Bip39] {path : Path} {s : Session} {v : Vault}
    {past : List Version} (h : s.Recorded path v past) : History path s past := by
  induction h with
  | start hfs => exact ⟨by simp [hfs], by simp, by simp, by simp, by simp⟩
  | step h m i op ih =>
    have htracks := h.reachable.tracks
    exact ih.step htracks (htracks.step m i op) (htracks.step_does m i op)

end HearthVault
