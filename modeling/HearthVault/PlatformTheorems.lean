/-
HearthVault.PlatformTheorems — what a caller of `write_private` may rely on.

Whatever fails and wherever the process is killed, the destination has its
old contents or the whole new ones, and an answer `Ok` means the new ones.
An answer `Err` does not mean the old ones: it may come from the sync of the
directory, which follows the rename. `FailsAfterRename` says when that
happens, in terms of the faults and of what stood at the two paths before,
and `writesAtomically_iff` that nothing else can go wrong.

The destination may be a symlink, so a directory entry is a `Node`. The
theorems are for Unix.
-/
import HearthVault.Platform
import HearthVault.Lib.Footprint

namespace HearthVault

open Files

/-- What a directory entry names. -/
inductive Node where
  | file (bytes : List UInt8)
  | symlink (target : Str)
  deriving DecidableEq, Repr

instance : Torn Node :=
  ⟨fun s => .file (Str.utf8 s)⟩

/-! ## The two halves of a write -/

section Halves

variable {ν : Type}

/-- The file beside the destination, up to its sync. -/
def writeTemp [Torn ν] (tmp : Path) (bytes : ν) : Fx ν (Except String Unit) := do
  let _ ← Fx.attempt (Fx.remove tmp)
  Fx.createNew tmp
  Fx.attempt (do Fx.fill tmp bytes; Fx.sync tmp)

/-- The end of a write that failed before the rename. -/
def dropTemp (tmp : Path) (e : String) : Fx ν Unit := do
  let _ ← Fx.attempt (Fx.remove tmp)
  Fx.ofResult (bail e)

/-- The sync after the rename: a directory that does not open is let be. -/
def syncParent (path : Path) : Fx ν Unit := do
  match ← Fx.attempt (Fx.openDir path.dir) with
  | .error _ => pure ()
  | .ok _ => Fx.syncDir path.dir

/-- The rename and what comes after it. -/
def moveTemp (tmp path : Path) : Fx ν Unit := do
  match ← Fx.attempt (Fx.rename tmp path) with
  | .error e => dropTemp tmp e
  | .ok _ => syncParent path

theorem writePrivate_run_eq [Torn ν] (m : Machine) (path : Path) (bytes : ν) (w : World ν) :
    (writePrivate path bytes).run m w =
      (writeTemp (tmpPath path m.pid) bytes >>= fun r => match r with
        | .error e => dropTemp (tmpPath path m.pid) e
        | .ok _ => moveTemp (tmpPath path m.pid) path).run m w := by
  rw [writePrivate, Fx.bind_run_ok (Fx.pid_run m w)]
  simp only [writeTemp, bind_assoc]
  rfl

theorem writeTemp_footprint [Torn ν] (tmp : Path) (bytes : ν) :
    (writeTemp tmp bytes).Footprint {tmp} true fun _ => True := by
  have htmp : tmp ∈ ({tmp} : Set Path) := rfl
  refine (Fx.Footprint.remove htmp).attempt.bind fun _ _ => ?_
  refine (Fx.Footprint.createNew htmp).bind fun _ _ => ?_
  exact ((Fx.Footprint.fill htmp bytes).bind fun _ _ =>
    Fx.Footprint.check fun _ => rfl).attempt.any

/-- What a crash has left at `tmp` does not stay there. -/
def Cleared (m : Machine) (w : World ν) (tmp : Path) : Prop :=
  m.next w (.remove tmp) = none ∨
    w.fs tmp = none ∧ ∃ s, m.next w (.remove tmp) = some (.fail s)

/-- Where the temporary file gets written and synced. -/
structure TempWritten (m : Machine) (w : World ν) (tmp : Path) : Prop where
  cleared : Cleared m w tmp
  createNew : m.next w (.createNew tmp) = none
  fill : m.next w (.fill tmp) = none
  sync : m.next w (.sync tmp) = none

/-- The world once the temporary file is written. -/
def afterTemp (w : World ν) (tmp : Path) (bytes : ν) : World ν :=
  ((((w.tick (.remove tmp)).tick (.createNew tmp)).tick (.fill tmp)).tick (.sync tmp)).put tmp bytes

variable {m : Machine} {w w' : World ν} {tmp path : Path} {bytes : ν}

/-- The stale file is gone after `remove_file`, and the program goes on. -/
theorem clear_iff : (∃ r, (Fx.attempt (Fx.remove tmp)).run m w = (.ok r, w')) ∧ w'.fs tmp = none ↔
    Cleared m w tmp ∧ w' = (w.tick (.remove tmp)).erase tmp := by
  rw [Fx.attempt_run, Fx.remove, Fx.step_run_eq, Cleared]
  rcases m.next w (.remove tmp) with _ | ⟨s | s⟩
  · cases hfs : w.fs tmp with
    | none =>
      rw [(w.tick _).erase_of_absent hfs]
      simp only [World.tick_fs, hfs, bail, caught]
      constructor
      · rintro ⟨⟨r, h⟩, -⟩
        exact ⟨.inl trivial, (Prod.mk.inj h).2.symm⟩
      · rintro ⟨-, rfl⟩
        exact ⟨⟨_, rfl⟩, hfs⟩
    | some c =>
      simp only [World.tick_fs, hfs, caught]
      constructor
      · rintro ⟨⟨r, h⟩, -⟩
        exact ⟨.inl trivial, (Prod.mk.inj h).2.symm⟩
      · rintro ⟨-, rfl⟩
        exact ⟨⟨_, rfl⟩, by simp⟩
  · simp only [caught, bail]
    constructor
    · rintro ⟨⟨r, h⟩, habsent⟩
      obtain ⟨-, rfl⟩ := Prod.mk.inj h
      exact ⟨.inr ⟨habsent, s, rfl⟩, (World.erase_of_absent _ habsent).symm⟩
    · rintro ⟨hclear, rfl⟩
      obtain hclear | ⟨habsent, -⟩ := hclear
      · cases hclear
      · rw [(w.tick _).erase_of_absent habsent]
        exact ⟨⟨_, rfl⟩, habsent⟩
  · simp [caught]

theorem writeTemp_eq_ok [Torn ν] {u : Unit} : (writeTemp tmp bytes).run m w = (.ok (.ok u), w') ↔
    TempWritten m w tmp ∧ w' = afterTemp w tmp bytes := by
  simp only [writeTemp, Fx.bind_eq_ok, Fx.createNew_eq_ok, Fx.attempt_eq_ok, Fx.fill, Fx.sync,
    Fx.check_eq_ok, Fx.step_eq_ok]
  constructor
  · rintro ⟨r, v, hclear, _, _, ⟨hcreate, habsent, rfl⟩, _, _, ⟨hfill, ⟨⟩⟩, hsync, -, rfl⟩
    obtain ⟨hcleared, rfl⟩ := clear_iff.mp ⟨⟨r, hclear⟩, habsent⟩
    simp [Machine.next_tick_of_ne] at hcreate hfill hsync
    refine ⟨⟨hcleared, hcreate, hfill, hsync⟩, ?_⟩
    simp [afterTemp, World.put, World.tick, World.erase]
  · rintro ⟨⟨hcleared, hcreate, hfill, hsync⟩, rfl⟩
    obtain ⟨⟨r, hclear⟩, habsent⟩ := clear_iff.mpr ⟨hcleared, rfl⟩
    refine ⟨r, _, hclear, (), _, ⟨?_, habsent, rfl⟩, (), _, ⟨?_, rfl⟩, ?_, trivial, ?_⟩
    · simpa [Machine.next_tick_of_ne]
    · simpa [Machine.next_tick_of_ne]
    · simpa [Machine.next_tick_of_ne]
    · simp [afterTemp, World.put, World.tick, World.erase]

theorem dropTemp_footprint (tmp : Path) (e : String) :
    (dropTemp tmp e : Fx ν Unit).Footprint {tmp} true fun _ => True := by
  have htmp : tmp ∈ ({tmp} : Set Path) := rfl
  exact (Fx.Footprint.remove htmp).attempt.bind fun _ _ => Fx.Footprint.ofResult fun _ _ => trivial

theorem syncParent_footprint (path : Path) :
    (syncParent path : Fx ν Unit).Footprint ∅ true fun _ => True := by
  refine (Fx.Footprint.check fun _ => rfl).attempt.bind fun r _ => ?_
  cases r with
  | error e => exact Fx.Footprint.pure trivial
  | ok u => exact Fx.Footprint.check fun _ => rfl

/-- An error after the rename is one of the sync. -/
theorem syncParent_err_iff :
    (∃ msg, ((syncParent path).run m w).1 = .error (.err msg)) ↔
      m.next w (.openDir path.dir) = none ∧ ∃ s, m.next w (.syncDir path.dir) = some (.fail s) := by
  rw [syncParent, Fx.bind_run, Fx.attempt_run, Fx.openDir, Fx.check, Fx.step_run_eq]
  rcases m.next w (.openDir path.dir) with _ | ⟨s | s⟩
  · simp only [caught, Fx.syncDir, Fx.check, Fx.step_run_eq]
    rw [Machine.next_tick_of_ne m w (by simp)]
    rcases m.next w (.syncDir path.dir) with _ | ⟨s | s⟩ <;> simp [bail]
  · simp [caught, bail]
  · simp [caught]

/-- Once the temporary file is there, an error is answered after the rename
exactly when the directory does not sync. -/
theorem moveTemp_err_iff (hne : path ≠ tmp) (htmp : w.fs tmp = some bytes)
    (hchanges : w.fs path ≠ some bytes) :
    (∃ msg, ((moveTemp tmp path).run m w).1 = .error (.err msg)) ∧
        ((moveTemp tmp path).run m w).2.fs path ≠ w.fs path ↔
      m.next w (.rename tmp path) = none ∧ m.next w (.openDir path.dir) = none ∧
        ∃ s, m.next w (.syncDir path.dir) = some (.fail s) := by
  rw [moveTemp, Fx.bind_run, Fx.attempt_run, Fx.rename, Fx.step_run_eq]
  rcases m.next w (.rename tmp path) with _ | ⟨s | s⟩
  · simp only [World.tick_fs, htmp, caught, syncParent_err_iff, true_and]
    rw [(syncParent_footprint path).run_fs (Set.notMem_empty path)]
    simp [Machine.next_tick_of_ne, hchanges.symm]
  · simp only [caught, bail, reduceCtorEq, false_and, iff_false]
    rintro ⟨-, hfs⟩
    exact hfs ((dropTemp_footprint tmp _).run_fs hne)
  · simp [caught]

end Halves

/-! ## Atomic writes -/

/-- What a caller may take the answer of `write_private` for. -/
structure AtomicOutcome (w : World Node) (path : Path) (bytes : List UInt8)
    (out : Result Unit × World Node) : Prop where
  whole : out.2.fs path = w.fs path ∨ out.2.fs path = some (.file bytes)
  done : out.1 = .ok () → out.2.fs path = some (.file bytes)
  failed : ∀ msg, out.1 = .error (.err msg) → out.2.fs path = w.fs path

def WritesAtomically (m : Machine) (w : World Node) (path : Path) (bytes : List UInt8) : Prop :=
  AtomicOutcome w path bytes ((writePrivate path (.file bytes)).run m w)

/-- The temporary file is written and renamed to a path with other contents,
and then the directory does not sync. -/
structure FailsAfterRename (m : Machine) (w : World Node) (path : Path) (bytes : List UInt8) :
    Prop where
  changes : w.fs path ≠ some (.file bytes)
  written : TempWritten m w (tmpPath path m.pid)
  renamed : m.next w (.rename (tmpPath path m.pid) path) = none
  opened : m.next w (.openDir path.dir) = none
  unsynced : ∃ s, m.next w (.syncDir path.dir) = some (.fail s)

theorem writePrivate_whole (m : Machine) (w : World Node) (path : Path) (bytes : List UInt8) :
    ((writePrivate path (.file bytes)).run m w).2.fs path = w.fs path ∨
      ((writePrivate path (.file bytes)).run m w).2.fs path = some (Node.file bytes) := by
  have h := writePrivate_atomic m path (Node.file bytes) w w (.refl _ _)
  rcases hrun : (writePrivate path (Node.file bytes)).run m w with ⟨r, w'⟩
  rw [hrun] at h
  cases r with
  | ok u => exact .inr h.2
  | error e => exact h.2

/-- When an error is answered with other contents at the destination than
before. -/
theorem writePrivate_err_iff (m : Machine) (w : World Node) (path : Path) (bytes : List UInt8) :
    (∃ msg, ((writePrivate path (Node.file bytes)).run m w).1 = .error (.err msg)) ∧
        ((writePrivate path (Node.file bytes)).run m w).2.fs path ≠ w.fs path ↔
      FailsAfterRename m w path bytes := by
  by_cases hchanges : w.fs path = some (.file bytes)
  · -- Old and new contents are the same.
    have hsame := writePrivate_whole m w path bytes
    rw [hchanges, or_self] at hsame
    rw [hchanges]
    exact ⟨fun h => absurd hsame h.2, fun h => absurd hchanges h.changes⟩
  · have hne : path ≠ tmpPath path m.pid := (tmpPath_ne path m.pid).symm
    have hfs : ((writeTemp (tmpPath path m.pid) (Node.file bytes)).run m w).2.fs path = w.fs path :=
      (writeTemp_footprint _ _).run_fs hne
    have hwritten : TempWritten m w (tmpPath path m.pid) →
        (writeTemp (tmpPath path m.pid) (Node.file bytes)).run m w =
          (.ok (.ok ()), afterTemp w (tmpPath path m.pid) (.file bytes)) :=
      fun h => writeTemp_eq_ok.mpr ⟨h, rfl⟩
    rw [writePrivate_run_eq, Fx.bind_run]
    rcases hrun : (writeTemp (tmpPath path m.pid) (Node.file bytes)).run m w with ⟨_ | _ | u, v⟩
    · rw [hrun] at hfs hwritten
      exact ⟨fun h => absurd hfs h.2, fun h => nomatch hwritten h.written⟩
    · rw [hrun] at hfs hwritten
      refine ⟨fun h => absurd ?_ h.2, fun h => nomatch hwritten h.written⟩
      exact ((dropTemp_footprint _ _).run_fs hne).trans hfs
    · obtain ⟨hwritten, rfl⟩ := writeTemp_eq_ok.mp hrun
      have hpath : (afterTemp w (tmpPath path m.pid) (Node.file bytes)).fs path = w.fs path := by
        simp [afterTemp, hne]
      rw [← hpath] at hchanges ⊢
      simp only [moveTemp_err_iff hne (by simp [afterTemp]) hchanges]
      constructor
      · rintro ⟨hrename, hopen, hsync⟩
        simp [afterTemp, Machine.next_tick_of_ne] at hrename hopen hsync
        rw [hpath] at hchanges
        exact ⟨hchanges, hwritten, hrename, hopen, hsync⟩
      · rintro ⟨-, -, hrename, hopen, hsync⟩
        simpa [afterTemp, Machine.next_tick_of_ne] using ⟨hrename, hopen, hsync⟩

theorem writesAtomically_iff (m : Machine) (w : World Node) (path : Path) (bytes : List UInt8) :
    WritesAtomically m w path bytes ↔ ¬FailsAfterRename m w path bytes := by
  rw [← writePrivate_err_iff]
  constructor
  · rintro h ⟨⟨msg, hr⟩, hfs⟩
    exact hfs (h.failed msg hr)
  · intro h
    have hdone := writePrivate_atomic m path (Node.file bytes) w w (.refl _ _)
    have hwhole := writePrivate_whole m w path bytes
    show AtomicOutcome w path bytes ((writePrivate path (Node.file bytes)).run m w)
    rcases hrun : (writePrivate path (Node.file bytes)).run m w with ⟨r, w'⟩
    rw [hrun] at h hdone hwhole
    refine ⟨hwhole, ?_, ?_⟩
    · rintro rfl
      exact hdone.2
    · rintro msg rfl
      by_contra hfs
      exact h ⟨⟨msg, rfl⟩, hfs⟩

/-- A vault of one byte is replaced by another one, and the directory does
not sync: the answer is an error, and the old vault is gone. -/
theorem unsynced_write_replaces : ¬WritesAtomically
    (.faultyAt (.syncDir "/home".toList) (.fail []))
    (.single ⟨"/home".toList, "v".toList⟩ (.file [1]) 0) ⟨"/home".toList, "v".toList⟩ [2] := by
  intro h
  have hfailed := h.failed "I/O error" (by decide)
  revert hfailed
  decide

end HearthVault
