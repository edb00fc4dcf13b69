/-
HearthVault.Cli.RestoreTheorems — `cmd_restore` beside other writers.

The snapshot of the vault is read before the vault lock is taken. `Looking`
is the time between the two; when no other process writes the vault file in
it, what the restore overwrites is in its snapshot, and a restore that
answers an error has left the vault file alone (`cmdRestore_backsUp`). A save
that comes in that time is lost (`cmdRestore_loses_a_save`).
-/
import HearthVault.Cli.Footprints
import HearthVault.Lib.Disturbed

namespace HearthVault

open Files Symbolic Calendar

/-! ## Other processes -/

/-- What the other processes keep to: they write the vault file under its lock
only, and leave alone the temporary files of the restore and the snapshots
that are there. -/
structure Others (vaultPath : Path) (pid : Nat) (s : Scene Contents) (w : Disk) : Prop where
  vault : s.held (lockPathFor vaultPath) = true → w.fs vaultPath = s.world.fs vaultPath
  temps : ∀ q, w.fs (tmpPath q pid) = s.world.fs (tmpPath q pid)
  snapshots : ∀ now, (s.world.fs (backupTarget vaultPath now)).isSome →
    w.fs (backupTarget vaultPath now) = s.world.fs (backupTarget vaultPath now)

/-- The restore has seen the vault file: it has read it or found none. -/
def Looks (vaultPath : Path) (e : Event Contents) : Bool :=
  e.ok && (e.op = .read vaultPath || (e.op = .stat vaultPath && (e.before vaultPath).isNone))

/-- The restore has seen the vault file and has not yet taken its lock. -/
def Looking (vaultPath : Path) : List (Event Contents) → Bool
  | [] => false
  | e :: earlier =>
    Looks vaultPath e ||
      (!(e.ok && e.op = .lock (lockPathFor vaultPath)) && Looking vaultPath earlier)

/-- The vault file is none of the files that a restore works on besides it. -/
structure Apart (vaultPath source : Path) (pid : Nat) : Prop where
  source : vaultPath ∉ vaultFiles source
  target : ∀ now, vaultPath ≠ backupTarget vaultPath now
  targetTemp : ∀ now, vaultPath ≠ tmpPath (backupTarget vaultPath now) pid

/-! ## What a restore should do -/

/-- The restore has written a snapshot that holds these contents. -/
def Snapshot (vaultPath : Path) (pid : Nat) (c : Contents) (s : Scene Contents) : Prop :=
  ∃ now, s.world.fs (backupTarget vaultPath now) = some c ∧ ∃ e ∈ s.trace,
    e.op = .rename (tmpPath (backupTarget vaultPath now) pid) (backupTarget vaultPath now) ∧
    e.ok = true ∧ e.after (backupTarget vaultPath now) = some c

/-- Whatever the restore has overwritten is in its snapshot, and after an error
nothing has been. -/
structure BacksUp (vaultPath : Path) (pid : Nat) (r : Result Unit) (s : Scene Contents) : Prop where
  backed : ∀ e ∈ s.trace, e.Touches vaultPath → ∀ c, e.before vaultPath = some c →
    Snapshot vaultPath pid c s
  refused : ∀ msg, r = .error (.err msg) → s.Spared vaultPath

theorem BacksUp.of_spared {vaultPath : Path} {pid : Nat} {r : Result Unit} {s : Scene Contents}
    (h : s.Spared vaultPath) : BacksUp vaultPath pid r s :=
  ⟨fun e he htouch => absurd htouch (h e he), fun _ _ => h⟩

/-! ## Writing beside others -/

/-- The others leave a temporary file alone, and work on it keeps `I`. -/
structure TempKeeps (others : Scene Contents → Disk) (pid : Nat) (path : Path)
    (I : Scene Contents → Prop) : Prop where
  temp : ∀ s, (others s).fs (tmpPath path pid) = s.world.fs (tmpPath path pid)
  did : ∀ s op ok w', I s → (∀ q, op ≠ .lock q) →
    (∀ q, op.writes q = true → ok = true → q = tmpPath path pid) →
    (∀ q, q ≠ tmpPath path pid → w'.fs q = (others s).fs q) → I (s.did op (others s) ok w')

section WritePrivate

variable {others : Scene Contents → Disk} {m : Machine} {path : Path} {bytes : Contents}
  {I J : Scene Contents → Prop} {E : Halt → Scene Contents → Prop}

/-- A step on the temporary file. -/
theorem TempKeeps.step (h : TempKeeps others m.pid path I) {op : FileOp}
    {torn : Str → Disk → Disk} {act : Disk → Result Unit × Disk} (hlock : ∀ q, op ≠ .lock q)
    (hwrites : ∀ q, op.writes q = true → q = tmpPath path m.pid)
    (hact : ∀ w q, q ≠ tmpPath path m.pid → (act w).2.fs q = w.fs q)
    (htorn : ∀ l w q, q ≠ tmpPath path m.pid → (torn l w).fs q = w.fs q) :
    Fx.Amid others m I (Fx.step op torn act) (fun _ => I) fun _ => I := by
  refine Fx.Amid.effect (fun s hs => ?_) fun s hs left _ => ?_
  · have hdid : ∀ ok, I (s.did op (others s) ok (act ((others s).tick op)).2) :=
      fun ok => h.did s op ok _ hs hlock (fun q hq _ => hwrites q hq) fun q hq => hact _ q hq
    rcases hr : act ((others s).tick op) with ⟨r, w'⟩
    rw [hr] at hdid
    cases r with
    | ok a => exact hdid true
    | error e => exact hdid false
  · exact h.did s op false _ hs hlock (fun q hq _ => hwrites q hq) fun q hq => htorn _ _ q hq

theorem TempKeeps.remove (h : TempKeeps others m.pid path I) :
    Fx.Amid others m I (Fx.remove (tmpPath path m.pid)) (fun _ => I) fun _ => I := by
  refine h.step (by simp) (by simp [FileOp.writes, eq_comm]) (fun w q hq => ?_) fun _ _ _ _ => rfl
  cases w.fs (tmpPath path m.pid) with
  | none => rfl
  | some c => simp [Function.update_of_ne hq]

theorem TempKeeps.createNew (h : TempKeeps others m.pid path I) :
    Fx.Amid others m I (Fx.createNew (tmpPath path m.pid)) (fun _ => I) fun _ => I := by
  refine h.step (by simp) (by simp [FileOp.writes, eq_comm]) (fun w q hq => ?_) fun _ _ _ _ => rfl
  cases w.fs (tmpPath path m.pid) with
  | none => simp [Function.update_of_ne hq]
  | some c => rfl

/-- The temporary file is written, and stays as it was written. -/
theorem TempKeeps.fill (h : TempKeeps others m.pid path I) :
    Fx.Amid others m I (do Fx.fill (tmpPath path m.pid) bytes; Fx.sync (tmpPath path m.pid))
      (fun _ s => I s ∧ s.world.fs (tmpPath path m.pid) = some bytes) fun _ => I := by
  set tmp := tmpPath path m.pid
  have hput : ∀ (s : Scene Contents) (ok : Bool) (c : Contents), I s →
      I (s.did (.fill tmp) (others s) ok (((others s).tick (.fill tmp)).put tmp c)) := by
    intro s ok c hs
    refine h.did s _ ok _ hs (by simp) (fun q hq _ => ?_) fun q hq => ?_
    · simpa [FileOp.writes, eq_comm] using hq
    · exact Function.update_of_ne hq _ _
  have hsync : ∀ (s : Scene Contents) (ok : Bool), I s →
      I (s.did (.sync tmp) (others s) ok ((others s).tick (.sync tmp))) :=
    fun s ok hs => h.did s _ ok _ hs (by simp) (by simp [FileOp.writes]) fun _ _ => rfl
  refine Fx.Amid.bind (Q := fun _ s => I s ∧ s.world.fs tmp = some bytes) ?_ fun _ => ?_
  · exact Fx.Amid.effect (fun s hs => ⟨hput s true bytes hs, by simp [Scene.did]⟩)
      fun s hs left _ => hput s false _ hs
  · exact Fx.Amid.check (fun s hs => ⟨hsync s true hs.1, (h.temp s).trans hs.2⟩)
      fun s hs _ => hsync s false hs.1

/-- The rename makes `J` of it. -/
theorem TempKeeps.rename (h : TempKeeps others m.pid path I)
    (hJ : ∀ s w', I s → (∀ q, q ≠ path → q ≠ tmpPath path m.pid → w'.fs q = (others s).fs q) →
      w'.fs path = some bytes → J (s.did (.rename (tmpPath path m.pid) path) (others s) true w')) :
    Fx.Amid others m (fun s => I s ∧ s.world.fs (tmpPath path m.pid) = some bytes)
      (Fx.rename (tmpPath path m.pid) path) (fun _ => J) fun _ => I := by
  refine Fx.Amid.effect (fun s hs => ?_) fun s hs _ _ => ?_
  · have hbytes : ((others s).tick (.rename (tmpPath path m.pid) path)).fs (tmpPath path m.pid) =
        some bytes :=
      (h.temp s).trans hs.2
    simp only [hbytes]
    refine hJ s _ hs.1 (fun q hq hq' => ?_) (by simp)
    simp [Function.update_of_ne hq, Function.update_of_ne hq']
  · exact h.did s _ false _ hs.1 (by simp) (by simp) fun _ _ => rfl

/-- After the rename an error is one of syncing the directory. -/
theorem amid_syncDir
    (hend : ∀ s op ok, J s → (∀ q, op.writes q = false) → (∀ q, op ≠ .lock q) →
      J (s.did op (others s) ok ((others s).tick op)))
    (hE : ∀ s e, J s → (∀ msg, e ≠ .err msg) → E e s)
    (hsync : ∀ s n left, m.faults (.syncDir path.dir) n = some (.fail left) → J s →
      E (.err "I/O error") s) :
    Fx.Amid others m J (Fx.syncDir path.dir) (fun _ => J) E := by
  refine Fx.Amid.step (fun s hs => hend s _ _ hs (fun _ => rfl) (by simp)) fun s hs left => ?_
  have hdid := hend s (.syncDir path.dir) false hs (fun _ => rfl) (by simp)
  rcases hf : m.next (others s) (.syncDir path.dir) with _ | ⟨l | l⟩
  · trivial
  · exact hsync _ _ l hf hdid
  · exact hE _ _ hdid (by simp)

/-- `write_private` beside others: up to the rename it only works on the
temporary file, which keeps `I`; the rename makes `J` of it. -/
theorem amid_writePrivate (hI : TempKeeps others m.pid path I)
    (hJ : ∀ s w', I s → (∀ q, q ≠ path → q ≠ tmpPath path m.pid → w'.fs q = (others s).fs q) →
      w'.fs path = some bytes → J (s.did (.rename (tmpPath path m.pid) path) (others s) true w'))
    (hend : ∀ s op ok, J s → (∀ q, op.writes q = false) → (∀ q, op ≠ .lock q) →
      J (s.did op (others s) ok ((others s).tick op)))
    (hEI : ∀ s e, I s → E e s) (hEJ : ∀ s e, J s → (∀ msg, e ≠ .err msg) → E e s)
    (hsync : ∀ s n left, m.faults (.syncDir path.dir) n = some (.fail left) → J s →
      E (.err "I/O error") s) :
    Fx.Amid others m I (writePrivate path bytes) (fun _ => J) E := by
  have hdrop : Fx.Amid others m I (Fx.attempt (Fx.remove (tmpPath path m.pid))) (fun _ => I) E := by
    refine hI.remove.attempt.weaken (fun _ h => h) (fun r _ h => ?_) fun e s h => hEI s e h.1
    cases r with
    | ok u => exact h
    | error e => exact h
  have hclean : ∀ e, Fx.Amid others m I
      (do let _ ← Fx.attempt (Fx.remove (tmpPath path m.pid)); Fx.ofResult (bail (α := Unit) e))
      (fun _ => J) E :=
    fun e => hdrop.bind fun _ => Fx.Amid.ofResult fun s hs => hEI s _ hs
  refine Fx.Amid.bind (Q := fun i s => I s ∧ i = m.pid) (Fx.Amid.query fun s hs => ⟨hs, rfl⟩)
    fun i => Fx.Amid.fact fun hi => ?_
  subst hi
  refine hdrop.bind fun _ => Fx.Amid.bind
    (hI.createNew.weaken (fun _ h => h) (fun _ _ h => h) fun e s h => hEI s e h) fun _ => ?_
  refine Fx.Amid.bind (hI.fill.attempt.weaken (fun _ h => h) (fun _ _ h => h)
    fun e s h => hEI s e h.1) fun r => ?_
  cases r with
  | error e => exact hclean e
  | ok u =>
    refine Fx.Amid.bind ((hI.rename hJ).attempt.weaken (fun _ h => h) (fun _ _ h => h)
      fun e s h => hEI s e h.1) fun r => ?_
    cases r with
    | error e => exact hclean e
    | ok u =>
      have hdir : Fx.Amid others m J (Fx.openDir path.dir) (fun _ => J) fun _ => J :=
        Fx.Amid.check (fun s hs => hend s _ _ hs (fun _ => rfl) (by simp))
          fun s hs _ => hend s _ _ hs (fun _ => rfl) (by simp)
      refine Fx.Amid.bind (Q := fun _ => J) (hdir.attempt.weaken (fun _ h => h) (fun r s h => ?_)
        fun e s h => hEJ s e h.1 h.2) fun r => ?_
      · cases r with
        | ok u => exact h
        | error e => exact h
      · cases r with
        | error e => exact Fx.Amid.pure fun _ hs => hs
        | ok u => exact amid_syncDir hend hEJ hsync

end WritePrivate

/-! ## The restore -/

section Restore

variable {others : Scene Contents → Disk} {m : Machine} {vaultPath source : Path}

/-- Until the lock: the vault file is as it was seen, and nothing has touched it. -/
structure Watched (vaultPath : Path) (c : Option Contents) (s : Scene Contents) : Prop where
  spared : s.Spared vaultPath
  looking : Looking vaultPath s.trace = true
  file : s.world.fs vaultPath = c

/-- Under the lock. -/
structure Guarded (vaultPath : Path) (c : Option Contents) (s : Scene Contents) : Prop where
  spared : s.Spared vaultPath
  held : s.held (lockPathFor vaultPath) = true
  file : s.world.fs vaultPath = c

section Steps

variable {s : Scene Contents} {op : FileOp} {ok : Bool} {w' : Disk} {c : Option Contents}

theorem Watched.did (hcalm : ∀ s, Looking vaultPath s.trace = true →
      (others s).fs vaultPath = s.world.fs vaultPath)
    (h : Watched vaultPath c s) (hlock : ∀ q, op ≠ .lock q)
    (hwrites : op.writes vaultPath = true → ok = true → False)
    (hfile : w'.fs vaultPath = (others s).fs vaultPath) :
    Watched vaultPath c (s.did op (others s) ok w') where
  spared := h.spared.did hwrites hfile
  looking := by simp [Scene.did, Looking, hlock, h.looking]
  file := hfile.trans ((hcalm s h.looking).trans h.file)

theorem Guarded.did (hothers : ∀ s, Others vaultPath m.pid s (others s))
    (h : Guarded vaultPath c s) (hwrites : op.writes vaultPath = true → ok = true → False)
    (hfile : w'.fs vaultPath = (others s).fs vaultPath) :
    Guarded vaultPath c (s.did op (others s) ok w') where
  spared := h.spared.did hwrites hfile
  held := by
    cases op with
    | lock q =>
      cases ok with
      | true => simp [Scene.did, Function.update_apply, h.held]
      | false => exact h.held
    | _ => exact h.held
  file := hfile.trans (((hothers s).vault h.held).trans h.file)

theorem Snapshot.did {c : Contents} (hothers : ∀ s, Others vaultPath m.pid s (others s))
    (h : Snapshot vaultPath m.pid c s)
    (htarget : ∀ now,
      w'.fs (backupTarget vaultPath now) = (others s).fs (backupTarget vaultPath now)) :
    Snapshot vaultPath m.pid c (s.did op (others s) ok w') := by
  obtain ⟨now, hfile, e, he, hwritten⟩ := h
  refine ⟨now, ?_, e, List.mem_cons_of_mem _ he, hwritten⟩
  rw [← hfile]
  exact (htarget now).trans ((hothers s).snapshots now (by simp [hfile]))

end Steps

/-- What the restore has seen of the vault file is in its snapshot. -/
def Ready (vaultPath : Path) (pid : Nat) (c : Option Contents) (s : Scene Contents) : Prop :=
  Watched vaultPath c s ∧ ∀ d, c = some d → Snapshot vaultPath pid d s

/-- The same under the lock. -/
def Locked (vaultPath : Path) (pid : Nat) (c : Option Contents) (s : Scene Contents) : Prop :=
  Guarded vaultPath c s ∧ ∀ d, c = some d → Snapshot vaultPath pid d s

section Phases

/-- `exists` answers no only where there is no file, unless the disk fails. -/
theorem amid_existed (hstat : ∀ n left, m.faults (.stat vaultPath) n ≠ some (.fail left)) :
    Fx.Amid others m (Scene.Spared vaultPath) (Fx.pathExists vaultPath)
      (fun b s => s.Spared vaultPath ∧ (b = false → Watched vaultPath none s))
      (fun _ s => s.Spared vaultPath) := by
  have hspared : ∀ (s : Scene Contents) (ok : Bool), s.Spared vaultPath →
      (s.did (.stat vaultPath) (others s) ok
        ((others s).tick (.stat vaultPath))).Spared vaultPath :=
    fun s ok hs => hs.did (by simp [FileOp.writes]) rfl
  have hcheck : Fx.Amid others m (Scene.Spared vaultPath)
      (Fx.check (.stat vaultPath) fun w => .ok (w.fs vaultPath).isSome)
      (fun b s => s.Spared vaultPath ∧ (b = false → Watched vaultPath none s))
      (fun e s => s.Spared vaultPath ∧ ∀ msg, e ≠ .err msg) := by
    refine Fx.Amid.step (fun s hs => ⟨hspared s true hs, fun hnone => ?_⟩) fun s hs left => ?_
    · have hfile : (others s).fs vaultPath = none := by simpa using hnone
      exact ⟨hspared s true hs, by simp [Scene.did, Looking, Looks, hfile], hfile⟩
    · rcases hf : m.next (others s) (.stat vaultPath) with _ | ⟨l | l⟩
      · trivial
      · exact absurd hf (hstat _ l)
      · exact ⟨hspared s false hs, by simp⟩
  refine (hcheck.attempt.bind fun r => ?_).weaken (fun _ h => h) (fun _ _ h => h)
    fun _ _ h => h.1.1
  cases r with
  | ok b => exact Fx.Amid.pure fun s hs => hs
  | error e => exact fun s hs => absurd rfl (hs.2 e)

variable (hcalm : ∀ s, Looking vaultPath s.trace = true →
  (others s).fs vaultPath = s.world.fs vaultPath)

include hcalm

/-- A step that neither writes the vault file nor takes a lock. -/
theorem Ready.did {s : Scene Contents} {c : Option Contents} (h : Ready vaultPath m.pid c s)
    (hothers : ∀ s, Others vaultPath m.pid s (others s)) {op : FileOp} {ok : Bool} {w' : Disk}
    (hlock : ∀ q, op ≠ .lock q) (hwrites : op.writes vaultPath = true → ok = true → False)
    (hfile : w'.fs vaultPath = (others s).fs vaultPath)
    (htarget : ∀ now,
      w'.fs (backupTarget vaultPath now) = (others s).fs (backupTarget vaultPath now)) :
    Ready vaultPath m.pid c (s.did op (others s) ok w') :=
  ⟨h.1.did hcalm hlock hwrites hfile, fun d hd => (h.2 d hd).did hothers htarget⟩

/-- `write_backup`: what it answers is a snapshot of the vault file. -/
theorem amid_writeBackup (hothers : ∀ s, Others vaultPath m.pid s (others s))
    (hapart : Apart vaultPath source m.pid) :
    Fx.Amid others m (Scene.Spared vaultPath) (writeBackup vaultPath)
      (fun _ s => ∃ c, Ready vaultPath m.pid c s) (fun _ s => s.Spared vaultPath) := by
  have hfootprint : ∀ q, (Fx.pathExists q : Prog Bool).Footprint ∅ false fun _ => True :=
    fun _ => .pathExists
  have hexists : ∀ q, Fx.Amid others m (Scene.Spared vaultPath) (Fx.pathExists q)
      (fun _ => Scene.Spared vaultPath) fun _ => Scene.Spared vaultPath :=
    fun q => Fx.Amid.footprint (hfootprint q) (Set.notMem_empty vaultPath)
  refine (hexists _).bind fun existed => Fx.Amid.bind (Q := fun _ s => s.Spared vaultPath)
    (Fx.Amid.ensure (fun s hs _ => hs) fun s hs => hs) fun _ => ?_
  refine Fx.Amid.bind (Q := fun _ s => s.Spared vaultPath) (Fx.Amid.query fun s hs => hs)
    fun now => ?_
  refine (hexists _).bind fun taken => Fx.Amid.bind (Q := fun _ s => s.Spared vaultPath)
    (Fx.Amid.ensure (fun s hs _ => hs) fun s hs => hs) fun _ => ?_
  refine Fx.Amid.bind (Q := fun c => Watched vaultPath (some c)) ?_ fun c => ?_
  · refine Fx.Amid.check (fun s hs => ?_) fun s hs _ => hs.did (by simp [FileOp.writes]) rfl
    have hdid : ∀ ok, (s.did (.read vaultPath) (others s) ok
        ((others s).tick (.read vaultPath))).Spared vaultPath :=
      fun ok => hs.did (by simp [FileOp.writes]) rfl
    cases hc : ((others s).tick (.read vaultPath)).fs vaultPath with
    | none => exact hdid false
    | some c => exact ⟨hdid true, by simp [Scene.did, Looking, Looks], hc⟩
  refine Fx.Amid.bind (Q := fun _ => Watched vaultPath (some c)) ?_ fun _ => ?_
  · have hmkdir : ∀ s ok, Watched vaultPath (some c) s → Watched vaultPath (some c)
        (s.did (.mkdir (backupTarget vaultPath now).dir) (others s) ok
          ((others s).tick (.mkdir (backupTarget vaultPath now).dir))) :=
      fun s ok hs => hs.did hcalm (by simp) (by simp [FileOp.writes]) rfl
    exact Fx.Amid.check (fun s hs => hmkdir s true hs) fun s hs _ => (hmkdir s false hs).spared
  refine Fx.Amid.bind (Q := fun _ => Ready vaultPath m.pid (some c)) (Fx.Amid.mapErr ?_
    fun _ _ _ h => h) fun _ => Fx.Amid.pure fun s hs => ⟨some c, hs⟩
  -- The snapshot is written; meanwhile the vault file is watched.
  have htarget := hapart.target now
  have htemp := hapart.targetTemp now
  refine amid_writePrivate ⟨fun s => (hothers s).temps _, ?_⟩ ?_ ?_ (fun s e hs => hs.spared)
    (fun s e hs _ => hs.1.spared) fun s n left _ hs => hs.1.spared
  · intro s op ok w' hs hlock hwrites hframe
    exact hs.did hcalm hlock (fun h h' => htemp (hwrites _ h h')) (hframe _ htemp)
  · intro s w' hs hframe hbytes
    refine ⟨hs.did hcalm (by simp) ?_ (hframe _ htarget htemp), ?_⟩
    · simp [FileOp.writes, htarget.symm, htemp.symm]
    · intro d hd
      cases hd
      exact ⟨now, hbytes, _, List.mem_cons_self .., rfl, rfl, hbytes⟩
  · intro s op ok hs hwrites hlock
    exact hs.did hcalm hothers hlock (by simp [hwrites]) rfl fun _ => rfl

/-- The vault lock, and with it the vault file stays as it was seen. -/
theorem amid_acquire (hothers : ∀ s, Others vaultPath m.pid s (others s)) :
    Fx.Amid others m (fun s => ∃ c, Ready vaultPath m.pid c s) (acquire vaultPath)
      (fun _ s => ∃ c, Locked vaultPath m.pid c s) (fun _ s => s.Spared vaultPath) := by
  have hmkdir : ∀ s c ok, Ready vaultPath m.pid c s → Ready vaultPath m.pid c
      (s.did (.mkdir vaultPath.dir) (others s) ok ((others s).tick (.mkdir vaultPath.dir))) :=
    fun s c ok hs => hs.did hcalm hothers (by simp) (by simp [FileOp.writes]) rfl fun _ => rfl
  refine Fx.Amid.bind (Q := fun _ s => ∃ c, Ready vaultPath m.pid c s) ?_ fun _ => ?_
  · refine Fx.Amid.check (fun s hs => hs.imp fun c hs => hmkdir s c true hs) fun s hs _ => ?_
    obtain ⟨c, hs⟩ := hs
    exact (hmkdir s c false hs).1.spared
  have hspared : ∀ s ok, Scene.Spared vaultPath s → (s.did (.lock (lockPathFor vaultPath))
      (others s) ok ((others s).tick (.lock (lockPathFor vaultPath)))).Spared vaultPath :=
    fun s ok hs => hs.did (by simp [FileOp.writes]) rfl
  refine Fx.Amid.check (fun s hs => hs.imp fun c hs => ⟨⟨hspared s true hs.1.spared, ?_, ?_⟩,
    fun d hd => ?_⟩) fun s hs _ => ?_
  · simp [Scene.did]
  · exact (hcalm s hs.1.looking).trans hs.1.file
  · exact (hs.2 d hd).did hothers fun _ => rfl
  · obtain ⟨c, hs⟩ := hs
    exact hspared s false hs.1.spared

end Phases

/-- The vault file is replaced under the lock; what it held is in the snapshot. -/
theorem amid_overwrite (hothers : ∀ s, Others vaultPath m.pid s (others s))
    (hsync : ∀ n left, m.faults (.syncDir vaultPath.dir) n ≠ some (.fail left))
    (hapart : Apart vaultPath source m.pid) (c : Option Contents) (bytes : Contents) :
    Fx.Amid others m (Locked vaultPath m.pid c) (writePrivate vaultPath bytes)
      (fun _ s => BacksUp vaultPath m.pid (.ok ()) s)
      (fun e s => BacksUp vaultPath m.pid (.error e) s) := by
  have htemp : vaultPath ≠ tmpPath vaultPath m.pid := (tmpPath_ne vaultPath m.pid).symm
  have htarget : ∀ now, backupTarget vaultPath now ≠ tmpPath vaultPath m.pid :=
    fun now => (tmpPath_ne_backupTarget vaultPath vaultPath m.pid now).symm
  refine (amid_writePrivate (J := fun s => ∀ e ∈ s.trace, e.Touches vaultPath →
    ∀ d, e.before vaultPath = some d → Snapshot vaultPath m.pid d s)
    ⟨fun s => (hothers s).temps _, ?_⟩ ?_ ?_ (fun s e hs => .of_spared hs.1.spared)
    (fun s e hs he => ⟨hs, fun msg hmsg => ?_⟩)
    fun s n left hf _ => absurd hf (hsync n left)).weaken
    (fun _ h => h) (fun _ _ h => ⟨h, nofun⟩) fun _ _ h => h
  · intro s op ok w' hs hlock hwrites hframe
    refine ⟨hs.1.did hothers (fun h h' => htemp (hwrites _ h h')) (hframe _ htemp), fun d hd => ?_⟩
    exact (hs.2 d hd).did hothers fun now => hframe _ (htarget now)
  · intro s w' hs hframe hbytes e he htouch d hd
    have hframe' : ∀ now, w'.fs (backupTarget vaultPath now) =
        (others s).fs (backupTarget vaultPath now) :=
      fun now => hframe _ (hapart.target now).symm (htarget now)
    obtain rfl | he := List.mem_cons.mp he
    · have hfile : (others s).fs vaultPath = c := ((hothers s).vault hs.1.held).trans hs.1.file
      exact (hs.2 d (hfile.symm.trans hd)).did hothers hframe'
    · exact absurd htouch (hs.1.spared e he)
  · intro s op ok hs hwrites hlock e he htouch d hd
    obtain rfl | he := List.mem_cons.mp he
    · simp [Event.Touches, hwrites] at htouch
    · exact (hs e he htouch d hd).did hothers fun _ => rfl
  · cases hmsg
    exact absurd rfl (he msg)

/-- A restore has what it overwrites in its snapshot, and leaves the vault file
alone when it answers an error: when no other process writes the vault file
while the restore has seen it and does not hold its lock, when the vault file
is apart from the others, and when looking whether it exists and syncing its
directory do not fail. -/
theorem cmdRestore_backsUp (hothers : ∀ s, Others vaultPath m.pid s (others s))
    (hcalm : ∀ s, Looking vaultPath s.trace = true →
      (others s).fs vaultPath = s.world.fs vaultPath)
    (hapart : Apart vaultPath source m.pid)
    (hstat : ∀ n left, m.faults (.stat vaultPath) n ≠ some (.fail left))
    (hsync : ∀ n left, m.faults (.syncDir vaultPath.dir) n ≠ some (.fail left))
    (passphrase : Str) (w : Disk) :
    BacksUp vaultPath m.pid
      ((cmdRestore vaultPath source passphrase).runAmid others m (.start w)).1
      ((cmdRestore vaultPath source passphrase).runAmid others m (.start w)).2 := by
  have hspares : ∀ {α : Type} {x : Prog α} {A : α → Prop},
      x.Footprint (vaultFiles source) false A →
        Fx.Amid others m (Scene.Spared vaultPath) x (fun _ => Scene.Spared vaultPath)
          (fun e s => BacksUp vaultPath m.pid (.error e) s) :=
    fun hx => (Fx.Amid.footprint hx hapart.source).weaken (fun _ h => h) (fun _ _ h => h)
      fun _ _ h => .of_spared h
  have hrestore : Fx.Amid others m (Scene.Spared vaultPath) (cmdRestore vaultPath source passphrase)
      (fun _ s => BacksUp vaultPath m.pid (.ok ()) s)
      (fun e s => BacksUp vaultPath m.pid (.error e) s) := by
    refine (hspares .pathExists).bind fun known => (hspares .ensure).bind fun _ => ?_
    refine (hspares (VaultStore.openAtWithPassphrase_footprint subset_rfl passphrase).mapErr).bind
      fun _ => ?_
    refine Fx.Amid.bind ((amid_existed hstat).weaken (fun _ h => h) (fun _ _ h => h)
      fun _ _ h => .of_spared h) fun existed => ?_
    refine Fx.Amid.bind (Q := fun _ s => ∃ c, Ready vaultPath m.pid c s)
      (Fx.Amid.when (fun _ => ?_) fun hnot s hs => ?_) fun _ => ?_
    · refine ((amid_writeBackup hcalm hothers hapart).weaken (fun _ h => h.1) (fun _ _ h => h)
        fun _ _ h => .of_spared h).bind fun _ => Fx.Amid.pure fun _ h => h
    · exact ⟨none, hs.2 (by simpa using hnot), by simp⟩
    refine Fx.Amid.bind (Q := fun _ s => ∃ c, Ready vaultPath m.pid c s) ?_ fun contents => ?_
    · have hread : ∀ s c ok, Ready vaultPath m.pid c s → Ready vaultPath m.pid c
          (s.did (.read source) (others s) ok ((others s).tick (.read source))) :=
        fun s c ok hs => hs.did hcalm hothers (by simp) (by simp [FileOp.writes]) rfl fun _ => rfl
      refine Fx.Amid.check (fun s hs => ?_) fun s hs _ => ?_
      all_goals obtain ⟨c, hs⟩ := hs
      swap
      · exact .of_spared (hread s c false hs).1.spared
      cases ((others s).tick (.read source)).fs source with
      | none => exact .of_spared (hread s c false hs).1.spared
      | some bytes => exact ⟨c, hread s c true hs⟩
    refine Fx.Amid.bind ((amid_acquire hcalm hothers).weaken (fun _ h => h) (fun _ _ h => h)
      fun _ _ h => .of_spared h) fun _ => ?_
    refine Fx.Amid.mapErr (fun s hs => ?_) fun msg msg' s h =>
      ⟨h.backed, fun _ _ => h.refused msg rfl⟩
    obtain ⟨c, hs⟩ := hs
    exact amid_overwrite hothers hsync hapart c contents s hs
  have hstart : (Scene.start w).Spared vaultPath := fun e he => absurd he List.not_mem_nil
  have hend := hrestore (.start w) hstart
  rcases hr : (cmdRestore vaultPath source passphrase).runAmid others m (.start w) with ⟨r, s⟩
  rw [hr] at hend
  cases r with
  | ok u => exact hend
  | error e => exact hend

end Restore

/-! ## Another process saves -/

section Saves

/-- A vault that was just created. -/
def created (passphrase : Str) (n : Nat) : Contents :=
  match VaultStore.fresh vaultJson passphrase n (n + 1) (n + 2) with
  | .ok store => .v2 (store.toFile (n + 3))
  | .error _ => Torn.torn []

def oldJson : Path :=
  ⟨"d".toList, "old.json".toList⟩

/-- A vault, and a snapshot of an earlier one beside it. -/
def twoVaults : Disk :=
  (World.single oldJson (created ['a'] 0) 100).put vaultJson (created ['b'] 10)

/-- Before the `n`-th operation of the restore another process saves, unless
the restore holds the vault lock. -/
def savesAt (n : Nat) (s : Scene Contents) : Disk :=
  if s.trace.length = n ∧ s.held (lockPathFor vaultJson) = false then
    s.world.put vaultJson (created ['b'] 20)
  else s.world

theorem tmpPath_ne_vaultJson (q : Path) (i : Nat) : tmpPath q i ≠ vaultJson := by
  intro h
  have hhead := congrArg (fun p => p.name.head?) h
  simp [tmpPath, vaultJson, Path.withFileName] at hhead

theorem savesAt_others (n : Nat) (s : Scene Contents) : Others vaultJson 1 s (savesAt n s) := by
  unfold savesAt
  split
  · rename_i hfree
    refine ⟨fun hheld => ?_, fun q => ?_, fun now _ => ?_⟩
    · rw [hfree.2] at hheld
      cases hheld
    · simp [Function.update_of_ne (tmpPath_ne_vaultJson q 1)]
    · simp [Function.update_of_ne (backupTarget_ne_vaultJson now)]
  · exact ⟨fun _ => rfl, fun _ => rfl, fun _ _ => rfl⟩

/-- A save that comes before the restore looks is in its snapshot. -/
theorem cmdRestore_backsUp_earlier :
    let run := (cmdRestore vaultJson oldJson ['a']).runAmid
      (fun s => if Looking vaultJson s.trace then s.world else savesAt 3 s) .quiet
      (.start twoVaults)
    run.1 = .ok () ∧ BacksUp vaultJson 1 run.1 run.2 := by
  have hothers : ∀ s, Others vaultJson Machine.quiet.pid s
      (if Looking vaultJson s.trace then s.world else savesAt 3 s) := by
    intro s
    split
    · exact ⟨fun _ => rfl, fun _ => rfl, fun _ _ => rfl⟩
    · exact savesAt_others 3 s
  have hcalm : ∀ s : Scene Contents, Looking vaultJson s.trace = true →
      (if Looking vaultJson s.trace then s.world else savesAt 3 s).fs vaultJson =
        s.world.fs vaultJson := by
    intro s hlooking
    rw [if_pos hlooking]
  have hsource : vaultJson ∉ vaultFiles oldJson := by
    rintro (h | h | ⟨i, h⟩)
    · exact absurd h (by decide)
    · exact absurd h (by decide)
    · exact tmpPath_ne_vaultJson oldJson i h.symm
  have hapart : Apart vaultJson oldJson Machine.quiet.pid :=
    ⟨hsource, fun now => (backupTarget_ne_vaultJson now).symm,
      fun now => (tmpPath_ne_vaultJson _ _).symm⟩
  exact ⟨by decide +kernel,
    cmdRestore_backsUp hothers hcalm hapart (fun _ _ => nofun) (fun _ _ => nofun) ['a'] twoVaults⟩

/-- A save that comes between the snapshot and the lock is overwritten, and is
in no snapshot. -/
theorem cmdRestore_loses_a_save : ∃ others : Scene Contents → Disk,
    (∀ s, Others vaultJson 1 s (others s)) ∧
    ¬BacksUp vaultJson 1
      ((cmdRestore vaultJson oldJson ['a']).runAmid others .quiet (.start twoVaults)).1
      ((cmdRestore vaultJson oldJson ['a']).runAmid others .quiet (.start twoVaults)).2 := by
  refine ⟨savesAt 17, savesAt_others 17, fun h => ?_⟩
  set s := ((cmdRestore vaultJson oldJson ['a']).runAmid (savesAt 17) .quiet (.start twoVaults)).2
    with hs
  have hlost : ∃ e ∈ s.trace, e.op.writes vaultJson = true ∧ e.ok = true ∧
      e.before vaultJson = some (created ['b'] 20) := by
    rw [hs]
    decide +kernel
  have hnone : (s.trace.all fun e => match e.op with
      | .rename _ q => q = vaultJson || e.after q ≠ some (created ['b'] 20)
      | _ => true) = true := by
    rw [hs]
    decide +kernel
  obtain ⟨e, he, hwrites, hok, hbefore⟩ := hlost
  obtain ⟨now, -, e', he', hop, -, hafter⟩ := h.backed e he (.inl ⟨hwrites, hok⟩) _ hbefore
  have hall := List.all_eq_true.mp hnone e' he'
  simp [hop, hafter, backupTarget_ne_vaultJson] at hall

end Saves

end HearthVault
