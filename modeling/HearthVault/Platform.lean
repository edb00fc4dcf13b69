/-
HearthVault.Platform — the file primitives of `platform.rs`.

`writePrivate` writes beside its destination and renames, so that at every
fault the destination holds the old contents or the whole new ones
(`writePrivate_atomic`). It can answer an error after the rename, when the
directory does not sync. `restrictToOwner` is a read of the metadata and a
change of mode, either of which may fail.
-/
import HearthVault.Store.Format

namespace HearthVault

open Files

/-- The temporary file of `write_private`, beside the destination. -/
def tmpPath (path : Path) (pid : Nat) : Path :=
  path.withFileName ('.' :: path.name ++ ".tmp.".toList ++ Nat.toDigits 10 pid)

theorem tmpPath_ne (path : Path) (pid : Nat) : tmpPath path pid ≠ path := by
  intro h
  have hlen := congrArg (fun p => p.name.length) h
  simp [tmpPath, Path.withFileName] at hlen
  omega

section

variable {ν : Type} [Torn ν]

/-- `write_private`. -/
def writePrivate (path : Path) (bytes : ν) : Fx ν Unit := do
  let tmp := tmpPath path (← Fx.pid)
  let _ ← Fx.attempt (Fx.remove tmp)
  Fx.createNew tmp
  match ← Fx.attempt (do Fx.fill tmp bytes; Fx.sync tmp) with
  | .error e =>
    let _ ← Fx.attempt (Fx.remove tmp)
    Fx.ofResult (bail e)
  | .ok _ =>
    match ← Fx.attempt (Fx.rename tmp path) with
    | .error e =>
      let _ ← Fx.attempt (Fx.remove tmp)
      Fx.ofResult (bail e)
    | .ok _ =>
      -- The rename is done: an error from here on leaves the new contents.
      match ← Fx.attempt (Fx.openDir path.dir) with
      | .error _ => pure ()
      | .ok _ => Fx.syncDir path.dir

/-- At every fault the destination has its old contents or the whole new
ones, and only a temporary file beside it is touched besides. -/
theorem writePrivate_atomic (m : Machine) (path : Path) (bytes : ν) (w₀ : World ν) :
    Fx.Meets m (w₀.Frame ∅) (writePrivate path bytes)
      (fun _ w => w₀.Frame {path, tmpPath path m.pid} w ∧ w.fs path = some bytes)
      (fun w => w₀.Frame {path, tmpPath path m.pid} w ∧
        (w.fs path = w₀.fs path ∨ w.fs path = some bytes)) := by
  set tmp := tmpPath path m.pid with htmp
  have hne : path ≠ tmp := (tmpPath_ne path m.pid).symm
  have hmem : tmp ∈ ({tmp} : Set Path) := rfl
  have hsub : ({tmp} : Set Path) ⊆ {path, tmp} := by simp
  -- Before the rename only the temporary file differs.
  have hold : ∀ w, w₀.Frame {tmp} w → w₀.Frame {path, tmp} w ∧
      (w.fs path = w₀.fs path ∨ w.fs path = some bytes) :=
    fun w h => ⟨h.mono hsub, .inl (h.fs path hne)⟩
  have hremove : Fx.Meets m (w₀.Frame {tmp}) (Fx.attempt (Fx.remove tmp))
      (fun _ => w₀.Frame {tmp})
      (fun w => w₀.Frame {path, tmp} w ∧ (w.fs path = w₀.fs path ∨ w.fs path = some bytes)) := by
    refine (Fx.Meets.remove hmem).attempt.weaken (fun _ h => h) ?_ hold
    rintro (_ | _) w h <;> exact h
  have hclean : ∀ e : String, Fx.Meets m (w₀.Frame {tmp})
      (do let _ ← Fx.attempt (Fx.remove tmp); Fx.ofResult (bail (α := Unit) e))
      (fun _ w => w₀.Frame {path, tmp} w ∧ w.fs path = some bytes)
      (fun w => w₀.Frame {path, tmp} w ∧ (w.fs path = w₀.fs path ∨ w.fs path = some bytes)) :=
    fun e => hremove.bind fun _ => Fx.Meets.ofResult hold
  have hnew : ∀ w, w₀.Frame {path, tmp} w ∧ w.fs path = some bytes → w₀.Frame {path, tmp} w ∧
      (w.fs path = w₀.fs path ∨ w.fs path = some bytes) :=
    fun w h => ⟨h.1, .inr h.2⟩
  have htick : ∀ op w, w₀.Frame {path, tmp} w ∧ w.fs path = some bytes →
      w₀.Frame {path, tmp} (w.tick op) ∧ (w.tick op).fs path = some bytes :=
    fun op w h => ⟨h.1.tick op, h.2⟩
  refine Fx.Meets.pid ?_
  rw [← htmp]
  refine (hremove.weaken (fun _ h => h.mono (Set.empty_subset _)) (fun _ _ h => h)
    (fun _ h => h)).bind fun _ => ?_
  refine Fx.Meets.bind ((Fx.Meets.createNew hmem).weaken (fun _ h => h) (fun _ _ h => h) hold)
    fun _ => ?_
  refine Fx.Meets.bind (Q := fun r w => w₀.Frame {tmp} w ∧ (r = .ok () → w.fs tmp = some bytes))
    ?_ fun r => ?_
  · -- Writing and syncing the temporary file.
    refine (Fx.Meets.attempt (Q := fun _ w => w₀.Frame {tmp} w ∧ w.fs tmp = some bytes)
      (E := w₀.Frame {tmp}) ?_).weaken (fun _ h => h) ?_ hold
    · refine Fx.Meets.bind (Fx.Meets.fill hmem bytes) fun _ => ?_
      refine (Fx.Meets.check fun w h => ?_).weaken (fun _ h => h) (fun _ _ h => h) fun _ h => h.1
      exact ⟨h.1.tick _, h.2⟩
    · rintro (_ | _) w h
      · exact ⟨h, nofun⟩
      · exact ⟨h.1, fun _ => h.2⟩
  cases r with
  | error e => exact (hclean e).weaken (fun _ h => h.1) (fun _ _ h => h) fun _ h => h
  | ok u =>
    refine Fx.Meets.bind (Q := fun r w => match r with
      | .ok _ => w₀.Frame {path, tmp} w ∧ w.fs path = some bytes
      | .error _ => w₀.Frame {tmp} w) ?_ fun r => ?_
    · refine (Fx.Meets.attempt
        (Q := fun _ w => w₀.Frame {path, tmp} w ∧ w.fs path = some bytes)
        (E := w₀.Frame {tmp}) ?_).weaken (fun _ h => h) (fun r _ h => by cases r <;> exact h) hold
      refine Fx.Meets.step (fun w s h => h.1.tick _) fun w h => ?_
      simp only [World.tick_fs, h.2 rfl]
      exact ⟨((((h.1.tick _).mono hsub).erase (by simp)).put (by simp) _), by simp⟩
    cases r with
    | error e => exact hclean e
    | ok u =>
      refine Fx.Meets.bind (Q := fun _ w => w₀.Frame {path, tmp} w ∧ w.fs path = some bytes)
        ?_ fun r => ?_
      · refine (Fx.Meets.check (htick _)).attempt.weaken (fun _ h => h) ?_ hnew
        rintro (_ | _) w h <;> exact h
      cases r with
      | error e => exact Fx.Meets.pure fun _ h => h
      | ok u => exact (Fx.Meets.check (htick _)).weaken (fun _ h => h) (fun _ _ h => h) hnew

/-- Without faults the destination is replaced and nothing stays beside it. -/
theorem writePrivate_run {m : Machine} (hm : m.Faultless) (path : Path) (bytes : ν)
    (w : World ν) : ∃ w', (writePrivate path bytes).run m w = (.ok (), w') ∧
      w.Frame {path, tmpPath path m.pid} w' ∧ w'.fs path = some bytes := by
  have hat := writePrivate_atomic m path bytes w w (.refl _ _)
  rcases hr : (writePrivate path bytes).run m w with ⟨r, w'⟩
  rw [hr] at hat
  cases r with
  | ok u => exact ⟨w', rfl, hat⟩
  | error e =>
    -- Every step finds what it needs.
    exfalso
    cases hf : w.fs (tmpPath path m.pid) <;>
    simp [writePrivate, Fx.bind_run, Fx.attempt_run, caught, Fx.remove, Fx.createNew, Fx.fill,
      Fx.sync, Fx.rename, Fx.openDir, Fx.syncDir, Fx.check_run hm, Fx.step_run hm, bail, hf] at hr

/-- What may stand at the destination may be written anywhere. -/
theorem writePrivate_keeps {m : Machine} {p : Path} {K : Option ν → Prop}
    (hK : Fx.Loose K) (path : Path) {bytes : ν} (hbytes : K (some bytes)) :
    Fx.Keeps m p K (writePrivate path bytes) fun _ => True := by
  have hclean : ∀ e : String, Fx.Keeps m p K
      (do let _ ← Fx.attempt (Fx.remove (tmpPath path m.pid)); Fx.ofResult (bail (α := Unit) e))
      fun _ => True :=
    fun e => (Fx.Keeps.remove hK).attempt.bind fun _ _ => Fx.Keeps.ofResult fun _ _ => trivial
  refine Fx.Meets.pid ?_
  refine (Fx.Keeps.remove hK).attempt.bind fun _ _ => ?_
  refine (Fx.Keeps.createNew hK).bind fun _ _ => ?_
  -- The rename moves the bytes just written, so they are tracked up to it.
  refine Fx.Meets.bind (Q := fun r w => K (w.fs p) ∧
    (r = .ok () → w.fs (tmpPath path m.pid) = some bytes)) ?_ fun r => ?_
  · refine (Fx.Meets.attempt (Q := fun _ w => K (w.fs p) ∧
      w.fs (tmpPath path m.pid) = some bytes) (E := fun w => K (w.fs p)) ?_).weaken
      (fun _ h => h) ?_ fun _ h => h
    · refine Fx.Meets.bind (Q := fun _ w => K (w.fs p) ∧
        w.fs (tmpPath path m.pid) = some bytes) ?_ fun _ => ?_
      · exact Fx.Meets.step (fun w s h => Fx.Keeps.of_put h (hK.torn s))
          fun w h => ⟨Fx.Keeps.of_put h hbytes, by simp⟩
      · exact (Fx.Meets.check fun w h => h).weaken (fun _ h => h) (fun _ _ h => h) fun _ h => h.1
    · rintro (_ | _) w h
      · exact ⟨h, nofun⟩
      · exact ⟨h.1, fun _ => h.2⟩
  cases r with
  | error e => exact Fx.Meets.weaken (hclean e) (fun _ h => h.1) (fun _ _ h => h) fun _ h => h
  | ok u =>
    refine Fx.Meets.bind (Q := fun _ w => K (w.fs p)) ?_ fun r => ?_
    · refine (Fx.Meets.attempt (Q := fun _ w => K (w.fs p)) (E := fun w => K (w.fs p)) ?_).weaken
        (fun _ h => h) (fun r _ h => by cases r <;> exact h) fun _ h => h
      refine Fx.Meets.step (fun w s h => h.1) fun w h => ?_
      simp only [World.tick_fs, h.2 rfl]
      refine Fx.Keeps.of_put ?_ hbytes
      rw [World.erase_fs, Function.update_apply]
      split
      · exact hK.absent
      · exact h.1
    cases r with
    | error e => exact hclean e
    | ok u =>
      refine Fx.Keeps.bind (Fx.Keeps.check.attempt) fun r _ => ?_
      cases r with
      | error e => exact Fx.Keeps.pure trivial
      | ok u => exact Fx.Keeps.check

end

/-- `restrict_to_owner`. -/
def restrictToOwner (path : Path) : Prog Unit := do
  Fx.metadata path
  Fx.chmod path

/-- `fs::read_to_string`, with the contents still parsed. -/
def readToString (path : Path) : Prog Contents := do
  match ← Fx.read path with
  | .binary _ => Fx.ofResult (bail "stream did not contain valid UTF-8")
  | c => pure c

theorem readToString_eq_ok {m : Machine} {path : Path} {w w' : Disk} {c : Contents} :
    (readToString path).run m w = (.ok c, w') ↔ m.next w (.read path) = none ∧
      w.fs path = some c ∧ (∀ bytes, c ≠ .binary bytes) ∧ w.tick (.read path) = w' := by
  simp only [readToString, Fx.bind_eq_ok, Fx.read_eq_ok]
  constructor
  · rintro ⟨c', _, ⟨hnext, hfs, rfl⟩, h⟩
    cases c' <;> simp [bail] at h <;> obtain ⟨rfl, rfl⟩ := h <;> simp [hnext, hfs]
  · rintro ⟨hnext, hfs, htext, rfl⟩
    refine ⟨c, _, ⟨hnext, hfs, rfl⟩, ?_⟩
    cases c <;> simp at htext ⊢

end HearthVault
