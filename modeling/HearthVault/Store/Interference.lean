/-
HearthVault.Store.Interference — one process at work beside others.

The part of the shared state that a process alone changes is its `View`: the
vault file while it holds the vault lock, its temporary file, and what it has
written so far. `Allows` is what every process keeps to:
it leaves the views of the others alone, and the vault file, once there, in
place. The rules below are those of `Fx.Among` for these two, one for each
kind of step, and then one for each program that writes.
-/
import HearthVault.Lib.Processes
import HearthVault.Store.VaultStore

namespace HearthVault

open Files

/-! ## Paths -/

theorem toDigits_injective : Function.Injective (Nat.toDigits 10) := by
  intro a b h
  have := congrArg (Nat.ofDigitChars 10 · 0) h
  simpa using this

/-- The process id is what follows the last dot. -/
theorem tmpPath_inj {path path' : Path} {i j : Nat} (h : tmpPath path i = tmpPath path' j) :
    path = path' ∧ i = j := by
  have hdot : ∀ n, '.' ∉ Nat.toDigits 10 n := by
    intro n hmem
    have := Nat.isDigit_of_mem_toDigits (by decide) (by decide) hmem
    revert this
    decide
  have hlast : ∀ (name : Str) (n : Nat),
      (name ++ ".tmp.".toList ++ Nat.toDigits 10 n).reverse.takeWhile
      (fun c => c ≠ '.') = (Nat.toDigits 10 n).reverse := by
    intro name n
    rw [List.reverse_append, List.takeWhile_append_of_pos]
    · simp
    · intro c hc
      have hne : c ≠ '.' := fun heq => hdot n (heq ▸ List.mem_reverse.mp hc)
      simpa using hne
  simp only [tmpPath, Path.withFileName, Files.Path.mk.injEq, List.cons_append, List.cons.injEq,
    true_and] at h
  obtain ⟨hdir, hname⟩ := h
  have hdigits := congrArg (fun name => name.reverse.takeWhile fun c => decide (c ≠ '.')) hname
  rw [hlast, hlast, List.reverse_inj] at hdigits
  rw [hdigits] at hname
  obtain ⟨dir, name⟩ := path
  obtain ⟨dir', name'⟩ := path'
  cases hdir
  cases List.append_cancel_right (List.append_cancel_right hname)
  exact ⟨rfl, toDigits_injective hdigits⟩

theorem tmpPath_injective (path : Path) : Function.Injective (tmpPath path) :=
  fun _ _ h => (tmpPath_inj h).2

/-- A temporary file ends in a digit, a backup does not. -/
theorem tmpPath_ne_backupPathFor (path path' : Path) (pid : Nat) :
    tmpPath path pid ≠ backupPathFor path' := by
  intro h
  have hmem : 'k' ∈ Nat.toDigits 10 pid := by
    have hne : Nat.toDigits 10 pid ≠ [] := by
      rw [← List.length_pos_iff]
      exact Nat.length_toDigits_pos
    have hlast := congrArg (fun p => p.name.getLast?) h
    simp only [tmpPath, backupPathFor, Path.withFileName, List.getLast?_append_of_ne_nil _ hne,
      List.getLast?_append] at hlast
    exact List.mem_of_getLast? hlast
  have := Nat.isDigit_of_mem_toDigits (by decide) (by decide) hmem
  revert this
  decide

/-! ## Views -/

/-- What a process alone changes. `file` is the vault file while the process
holds the vault lock. -/
structure View where
  file : Option (Option Contents)
  temp : Option Contents
  commits : List (Commit Contents)

/-- The process holds the vault lock. -/
abbrev View.held (v : View) : Bool :=
  v.file.isSome

theorem View.held_of_file {v : View} {c : Option Contents} (h : v.file = some c) :
    v.held = true := by
  simp [View.held, h]

def view (path : Path) (who : Nat) (s : Shared Contents) : View where
  file := if s.owner (lockPathFor path) = some who then some (s.world.fs path) else none
  temp := s.world.fs (tmpPath path who)
  commits := s.commits who

/-- A v2 file that replaces another one is sealed under the same data key. -/
def KeepsDataKey (before after : Option Contents) : Prop :=
  ∀ file file', before = some (.v2 file) → after = some (.v2 file') →
    ∃ dataKey body body', decryptBody dataKey file.vault = .ok body ∧
      decryptBody dataKey file'.vault = .ok body'

theorem keepsDataKey_none (after : Option Contents) : KeepsDataKey none after :=
  fun _ _ hbefore => nomatch hbefore

/-- What a process keeps to. -/
structure Allows (path : Path) (who : Nat) (s s' : Shared Contents) : Prop where
  others : ∀ j, j ≠ who → view path j s' = view path j s
  stays : (s.world.fs path).isSome → (s'.world.fs path).isSome
  log : s'.log = s.log ∨ ∃ after, s'.log = s.log ++ [⟨who, s.world.fs path, some after⟩] ∧
    s'.world.fs path = some after ∧ KeepsDataKey (s.world.fs path) (some after)

/-- A program of a process beside others. -/
abbrev Beside {α : Type} (m : Machine) (path : Path) (P : View → Prop) (x : Prog α)
    (Q : α → View → Prop) (E : View → Prop) : Prop :=
  Fx.Among path m (view path m.pid) (Allows path m.pid) P x Q E

variable {m : Machine} {path : Path} {α : Type} {P : View → Prop} {Q : α → View → Prop}
  {E : View → Prop}

/-! ## Steps -/

/-- A step on other files than the vault file. -/
theorem beside_step {op : FileOp} {torn : Str → Disk → Disk} {act : Disk → Result α × Disk}
    (hop : ∀ q, op ≠ .lock q) (hwrites : op.writes path = false)
    (hact : ∀ w q, (q = path ∨ ∃ j, j ≠ m.pid ∧ q = tmpPath path j) → (act w).2.fs q = w.fs q)
    (h : ∀ w v, P v → v.temp = w.fs (tmpPath path m.pid) → (∀ c, v.file = some c → w.fs path = c) →
      match (act w).1 with
      | .ok a => Q a { v with temp := (act w).2.fs (tmpPath path m.pid) }
      | .error _ => E { v with temp := (act w).2.fs (tmpPath path m.pid) }) :
    Beside m path P (Fx.step op torn act) Q E := by
  refine Fx.Among.step hop fun s hs => ?_
  set w := s.world.tick op with hw
  have hpath : (act w).2.fs path = s.world.fs path := hact w path (.inl rfl)
  have hdid : s.did path m.pid op (act w) = { s with world := (act w).2 } := by
    simp [Shared.did, hwrites, hpath]
  have hview : view path m.pid { s with world := (act w).2 } =
      { view path m.pid s with temp := (act w).2.fs (tmpPath path m.pid) } := by
    simp [view, hpath, Shared.commits]
  rw [hdid, hview]
  refine ⟨⟨fun j hj => ?_, fun hsome => ?_, .inl rfl⟩, h w _ hs rfl fun c hc => ?_⟩
  · have htemp : (act w).2.fs (tmpPath path j) = s.world.fs (tmpPath path j) :=
      hact w _ (.inr ⟨j, hj, rfl⟩)
    simp [view, hpath, htemp, Shared.commits]
  · simpa [hpath] using hsome
  · simp only [view] at hc
    split at hc
    · cases hc
      rfl
    · cases hc

/-- A step that changes no file. -/
theorem beside_check {op : FileOp} {act : Disk → Result α} (hop : ∀ q, op ≠ .lock q)
    (hwrites : op.writes path = false)
    (h : ∀ w v, P v → (∀ c, v.file = some c → w.fs path = c) →
      match act w with | .ok a => Q a v | .error _ => E v) :
    Beside m path P (Fx.check op act) Q E := by
  refine beside_step hop hwrites (fun _ _ _ => rfl) fun w v hv htemp hfile => ?_
  have := h w v hv hfile
  dsimp only
  rw [← htemp]
  exact this

/-- A step on the vault file, under the lock. -/
theorem beside_write {op : FileOp} {torn : Str → Disk → Disk} {act : Disk → Result α × Disk}
    (hop : ∀ q, op ≠ .lock q) (hwrites : op.writes path = true) (hheld : ∀ v, P v → v.held = true)
    (hact : ∀ w j, j ≠ m.pid → (act w).2.fs (tmpPath path j) = w.fs (tmpPath path j))
    (h : ∀ w v, P v → v.temp = w.fs (tmpPath path m.pid) → v.file = some (w.fs path) →
      ∃ a c, (act w).1 = .ok a ∧ (act w).2.fs path = some c ∧
        KeepsDataKey (w.fs path) (some c) ∧ Q a ⟨some (some c), (act w).2.fs (tmpPath path m.pid),
          v.commits ++ [⟨m.pid, w.fs path, some c⟩]⟩) :
    Beside m path P (Fx.step op torn act) Q E := by
  refine Fx.Among.step hop fun s hs => ?_
  have howner : s.owner (lockPathFor path) = some m.pid := by
    simpa [view, View.held] using hheld _ hs
  set w := s.world.tick op with hw
  obtain ⟨a, c, hr, hpath, hkeeps, hQ⟩ := h w _ hs rfl (by simp [view, howner, hw])
  have hdid : s.did path m.pid op (act w) =
      { s with world := (act w).2, log := s.log ++ [⟨m.pid, s.world.fs path, some c⟩] } := by
    simp [Shared.did, hwrites, hr, hpath, Except.isOk, Except.toBool]
  have hview : view path m.pid (s.did path m.pid op (act w)) =
      ⟨some (some c), (act w).2.fs (tmpPath path m.pid),
        (view path m.pid s).commits ++ [⟨m.pid, w.fs path, some c⟩]⟩ := by
    have hbefore : w.fs path = s.world.fs path := rfl
    rw [hdid, hbefore]
    simp [view, howner, hpath, Shared.commits]
  refine ⟨⟨fun j hj => ?_, fun _ => ?_, .inr ?_⟩, ?_⟩
  · have hother : some m.pid ≠ some j := by simpa using hj.symm
    have htemp : (act w).2.fs (tmpPath path j) = s.world.fs (tmpPath path j) := hact w j hj
    simp [hdid, view, howner, hother, htemp, Shared.commits, hj.symm]
  · simp [hdid, hpath]
  · exact ⟨c, by rw [hdid], by simp [hdid, hpath], hkeeps⟩
  · rw [hr, hview]
    exact hQ

/-- Taking the vault lock, or giving up. -/
theorem beside_lock {Q : Unit → View → Prop}
    (hQ : ∀ v c, P v → Q () { v with file := some c }) (hE : ∀ v, P v → E v) :
    Beside m path P (Fx.lock (lockPathFor path)) Q E := by
  refine Fx.Among.lock (fun s hs hfree => ?_) fun s hs => ?_
  · have hview : view path m.pid
        (s.locked (lockPathFor path) m.pid (s.world.tick (.lock (lockPathFor path)))) =
        { view path m.pid s with file := some (s.world.fs path) } := by
      simp [view, Shared.locked, Shared.commits]
    rw [hview]
    refine ⟨⟨fun j hj => ?_, fun h => h, .inl rfl⟩, hQ _ _ hs⟩
    have hother : some m.pid ≠ some j := by simpa using hj.symm
    simp [view, Shared.locked, Shared.commits, hfree, hother]
  · exact ⟨⟨fun _ _ => rfl, fun h => h, .inl rfl⟩, hE _ hs⟩

theorem view_released (s : Shared Contents) :
    view path m.pid (s.released (lockPathFor path) m.pid) =
      { view path m.pid s with file := none } := by
  by_cases h : s.owner (lockPathFor path) = some m.pid
  · simp [view, Shared.released, Shared.commits, h]
  · simp [view, Shared.released, Shared.commits, h]

theorem allows_released (s : Shared Contents) :
    Allows path m.pid s (s.released (lockPathFor path) m.pid) := by
  refine ⟨fun j hj => ?_, fun h => h, .inl rfl⟩
  have hother : some m.pid ≠ some j := by simpa using hj.symm
  by_cases h : s.owner (lockPathFor path) = some m.pid
  · simp [view, Shared.released, Shared.commits, h, hother]
  · simp [view, Shared.released, Shared.commits, h]

theorem beside_unlock {Q : Unit → View → Prop}
    (hQ : ∀ v, P v → Q () { v with file := none }) :
    Beside m path P (Fx.unlock (lockPathFor path)) Q E := by
  refine Fx.Among.unlock fun s hs => ⟨allows_released s, ?_⟩
  rw [view_released]
  exact hQ _ hs

theorem beside_releasing {x : Prog α} (hx : Beside m path P x
      (fun a v => Q a { v with file := none })
      (fun v => E { v with file := none })) :
    Beside m path P (x.releasing (lockPathFor path)) Q E := by
  refine Fx.Among.releasing hx (fun s _ hs => ⟨allows_released s, ?_⟩)
    fun s hs => ⟨allows_released s, ?_⟩
  · rw [view_released]
    exact hs
  · rw [view_released]
    exact hs

theorem beside_random {Q : Nat → View → Prop} (hQ : ∀ n v, P v → Q n v) :
    Beside m path P Fx.random Q E :=
  Fx.Among.query fun _ hs => ⟨⟨fun _ _ => rfl, fun h => h, .inl rfl⟩, hQ _ _ hs⟩

theorem beside_pid {Q : Nat → View → Prop} (hQ : ∀ v, P v → Q m.pid v) :
    Beside m path P Fx.pid Q E :=
  Fx.Among.query fun _ hs => ⟨⟨fun _ _ => rfl, fun h => h, .inl rfl⟩, hQ _ hs⟩

/-! ## Programs -/

theorem beside_read {Q : Contents → View → Prop}
    (hQ : ∀ c v, P v → (∀ before, v.file = some before → before = some c) → Q c v)
    (hE : ∀ v, P v → E v) : Beside m path P (Fx.read path) Q E := by
  refine beside_check nofun rfl fun w v hv hfile => ?_
  cases hc : w.fs path with
  | none => exact hE v hv
  | some c => exact hQ c v hv fun before hbefore => (hfile before hbefore).symm.trans hc

theorem beside_readToString {Q : Contents → View → Prop}
    (hQ : ∀ c v, P v → (∀ before, v.file = some before → before = some c) → Q c v)
    (hE : ∀ v, P v → E v) : Beside m path P (readToString path) Q E := by
  refine Fx.Among.bind (beside_read (Q := fun c v => P v ∧
    ∀ before, v.file = some before → before = some c) (fun c v hv h => ⟨hv, h⟩) hE) fun c => ?_
  cases c <;> first
    | exact Fx.Among.pure fun v hv => hQ _ v hv.1 hv.2
    | exact Fx.Among.ofResult fun v hv => hE v hv.1

/-- Whether the vault file is there: under the lock the answer stays true. -/
theorem beside_pathExists {Q : Bool → View → Prop}
    (hQ : ∀ b v, P v → (∀ before, v.file = some before → before.isSome = b) → Q b v) :
    Beside m path P (Fx.pathExists path) Q E := by
  have hstat : Beside m path P
      (Fx.check (.stat path) fun w => .ok (w.fs path).isSome)
      (fun b v => P v ∧ ∀ before, v.file = some before → before.isSome = b) fun _ => False :=
    beside_check nofun rfl fun w v hv hfile => ⟨hv, fun before hbefore => by rw [hfile _ hbefore]⟩
  refine Fx.Among.bind (hstat.attempt.weaken (fun _ h => h) (fun _ _ h => h)
    fun v h => (h.elim : E v)) fun r => ?_
  cases r with
  | ok b => exact Fx.Among.pure fun v hv => hQ b v hv.1 hv.2
  | error e => exact fun v hv => hv.elim

theorem beside_acquire {Q : Unit → View → Prop}
    (hQ : ∀ v c, P v → Q () { v with file := some c }) (hE : ∀ v, P v → E v) :
    Beside m path P (acquire path) Q E := by
  refine Fx.Among.bind (Q := fun _ => P) ?_ fun _ => beside_lock hQ hE
  exact beside_check nofun rfl fun w v hv _ => hv

/-- A program under the lock gives it back, unless it was held before; then
the vault file may be known. -/
theorem beside_underLock {held : Bool} {x : Prog α} {φ : Option Contents → Prop}
    {E : List (Commit Contents) → Prop} {Q : α → List (Commit Contents) → Prop}
    (hφ : held = false → ∀ c, φ c) {l : List (Commit Contents)} (hE : E l)
    (hx : Beside m path (fun v => (∃ before, v.file = some before ∧ φ before) ∧ v.commits = l) x
      (fun a v => v.held = true ∧ Q a v.commits) (fun v => E v.commits)) :
    Beside m path
      (fun v => (v.held = held ∧ ∀ before, v.file = some before → φ before) ∧ v.commits = l)
      (underLock held path x) (fun a v => v.held = held ∧ Q a v.commits)
      (fun v => E v.commits) := by
  cases held with
  | true =>
    refine hx.weaken (fun v h => ⟨?_, h.2⟩) (fun _ _ h => h) fun _ h => h
    obtain ⟨before, hbefore⟩ := Option.isSome_iff_exists.mp h.1.1
    exact ⟨before, hbefore, h.1.2 before hbefore⟩
  | false =>
    refine Fx.Among.bind (beside_acquire (Q := fun _ v =>
      (∃ before, v.file = some before ∧ φ before) ∧ v.commits = l)
      (fun v c hv => ⟨⟨c, rfl, hφ rfl c⟩, hv.2⟩) fun v hv => hv.2 ▸ hE) fun _ => ?_
    exact beside_releasing (hx.weaken (fun _ h => h) (fun a v h => ⟨rfl, h.2⟩) fun v h => h)

/-- A step on the temporary file of the process. -/
theorem beside_temp {op : FileOp} {torn : Str → Disk → Disk} {act : Disk → Result α × Disk}
    (hop : ∀ q, op ≠ .lock q) (hwrites : op.writes path = false)
    (hact : ∀ w q, q ≠ tmpPath path m.pid → (act w).2.fs q = w.fs q)
    (h : ∀ w v, P v → v.temp = w.fs (tmpPath path m.pid) → match (act w).1 with
      | .ok a => Q a { v with temp := (act w).2.fs (tmpPath path m.pid) }
      | .error _ => E { v with temp := (act w).2.fs (tmpPath path m.pid) }) :
    Beside m path P (Fx.step op torn act) Q E := by
  refine beside_step hop hwrites (fun w q hq => hact w q ?_) fun w v hv htemp _ => h w v hv htemp
  obtain hq | ⟨j, hj, rfl⟩ := hq
  · exact hq ▸ (tmpPath_ne path m.pid).symm
  · exact fun heq => hj (tmpPath_injective path heq)

/-- Under the lock: the vault file, the temporary file, and what was written. -/
def View.Locked (before temp : Option Contents) (l : List (Commit Contents)) (v : View) : Prop :=
  v.file = some before ∧ v.temp = temp ∧ v.commits = l

section Write

variable {before : Option Contents} {l : List (Commit Contents)} {temp : Option Contents}

/-- The temporary file is gone, whether it was there or not. -/
theorem beside_removeTemp :
    Beside m path (fun v => v.file = some before ∧ v.commits = l)
      (Fx.attempt (Fx.remove (tmpPath path m.pid))) (fun _ => View.Locked before none l)
      (fun v => v.commits = l) := by
  have hwrites : (FileOp.remove (tmpPath path m.pid)).writes path = false := by
    simp [FileOp.writes, tmpPath_ne]
  refine (Fx.Among.attempt (Q := fun _ => View.Locked before none l)
    (E := View.Locked before none l) ?_).weaken (fun _ h => h) ?_ fun v h => h.2.2
  · refine beside_temp nofun hwrites (fun w q hq => ?_) fun w v hv htemp => ?_
    · cases hc : w.fs (tmpPath path m.pid) with
      | none => rfl
      | some c => simp [Function.update_of_ne hq]
    · cases hc : w.fs (tmpPath path m.pid) with
      | none => exact ⟨hv.1, hc, hv.2⟩
      | some c => exact ⟨hv.1, by simp, hv.2⟩
  · rintro (_ | _) v h <;> exact h

theorem beside_createTemp :
    Beside m path (View.Locked before none l) (Fx.createNew (tmpPath path m.pid))
      (fun _ => View.Locked before (some (Torn.torn [])) l) E := by
  have hwrites : (FileOp.createNew (tmpPath path m.pid)).writes path = false := by
    simp [FileOp.writes, tmpPath_ne]
  refine beside_temp nofun hwrites (fun w q hq => ?_) fun w v hv htemp => ?_
  · cases hc : w.fs (tmpPath path m.pid) with
    | none => simp [Function.update_of_ne hq]
    | some c => rfl
  · rw [hv.2.1] at htemp
    simp only [← htemp]
    exact ⟨hv.1, by simp, hv.2.2⟩

theorem beside_fillTemp (bytes : Contents) :
    Beside m path (View.Locked before temp l)
      (do Fx.fill (tmpPath path m.pid) bytes; Fx.sync (tmpPath path m.pid))
      (fun _ => View.Locked before (some bytes) l) E := by
  have hwrites : (FileOp.fill (tmpPath path m.pid)).writes path = false := by
    simp [FileOp.writes, tmpPath_ne]
  refine Fx.Among.bind (Q := fun _ => View.Locked before (some bytes) l) ?_ fun _ => ?_
  · refine beside_temp nofun hwrites (fun w q hq => ?_) fun w v hv htemp => ?_
    · simp [Function.update_of_ne hq]
    · exact ⟨hv.1, by simp, hv.2.2⟩
  · exact beside_check nofun rfl fun w v hv _ => hv

/-- The step that replaces the vault file. -/
theorem beside_renameTemp {bytes : Contents} (hkeeps : KeepsDataKey before (some bytes)) :
    Beside m path (View.Locked before (some bytes) l) (Fx.rename (tmpPath path m.pid) path)
      (fun _ v => v.held = true ∧ v.commits = l ++ [⟨m.pid, before, some bytes⟩]) E := by
  have hwrites : (FileOp.rename (tmpPath path m.pid) path).writes path = true := by
    simp [FileOp.writes]
  refine beside_write nofun hwrites (fun v hv => by simp [View.held, hv.1])
    (fun w j hj => ?_) fun w v hv htemp hfile => ?_
  · have hj' : tmpPath path j ≠ tmpPath path m.pid := fun heq => hj (tmpPath_injective path heq)
    cases hc : w.fs (tmpPath path m.pid) with
    | none => rfl
    | some c => simp [Function.update_of_ne hj', Function.update_of_ne (tmpPath_ne path j)]
  · rw [hv.2.1] at htemp
    rw [hv.1, Option.some.injEq] at hfile
    refine ⟨(), bytes, by simp [← htemp], by simp [← htemp], hfile ▸ hkeeps, rfl, ?_⟩
    simp [hv.2.2, hfile]

/-- A step that only checks cannot fail here. -/
theorem beside_sync {op : FileOp} (hop : ∀ q, op ≠ .lock q) (hwrites : op.writes path = false) :
    Beside m path P (Fx.check op fun _ => .ok ()) (fun _ => P) E :=
  beside_check hop hwrites fun _ _ hv _ => hv

/-- A step that cannot fail here, with its error caught. -/
theorem beside_attempt_ok {x : Prog Unit} {P' : View → Prop} {k : Except String Unit → Prog α}
    (hx : Beside m path P x (fun _ => P') fun _ => False) (hk : Beside m path P' (k (.ok ())) Q E) :
    Beside m path P (Fx.attempt x >>= k) Q E := by
  have hattempt := hx.attempt.weaken (fun _ h => h) (fun _ _ h => h) fun v h => (h.elim : E v)
  refine hattempt.bind fun r => ?_
  cases r with
  | error e => exact fun v hv => hv.elim
  | ok u => exact hk

/-- `write_private` of the vault file, under the lock. -/
theorem beside_writePrivate {bytes : Contents} (hkeeps : KeepsDataKey before (some bytes)) :
    Beside m path (fun v => v.file = some before ∧ v.commits = l) (writePrivate path bytes)
      (fun _ v => v.held = true ∧ v.commits = l ++ [⟨m.pid, before, some bytes⟩])
      (fun v => v.commits = l) := by
  have hpid : Beside m path (fun v => v.file = some before ∧ v.commits = l) Fx.pid
      (fun pid v => (v.file = some before ∧ v.commits = l) ∧ pid = m.pid)
      (fun v => v.commits = l) :=
    beside_pid fun v hv => ⟨hv, rfl⟩
  refine hpid.bind fun pid => Fx.Among.fact fun hpid => ?_
  subst hpid
  refine beside_removeTemp.bind fun _ => beside_createTemp.bind fun _ => ?_
  refine beside_attempt_ok (beside_fillTemp bytes) ?_
  dsimp only
  refine beside_attempt_ok (beside_renameTemp hkeeps) ?_
  dsimp only
  exact beside_attempt_ok (beside_sync nofun rfl) (beside_sync nofun rfl)

end Write

/-! ## Migration -/

section Migrate

/-- Under the lock, over a file that is no v2 vault. -/
def View.NotV2 (v : View) : Prop :=
  ∃ before, v.file = some before ∧ ∀ file, before ≠ some (.v2 file)

theorem View.NotV2.held {v : View} (h : v.NotV2) : v.held = true :=
  View.held_of_file h.choose_spec.1

theorem View.NotV2.keepsDataKey {v : View} (h : v.NotV2) {before after : Option Contents}
    (hfile : v.file = some before) : KeepsDataKey before after := by
  obtain ⟨before', hfile', hne⟩ := h
  rw [hfile, Option.some.injEq] at hfile'
  rintro file - rfl -
  exact absurd hfile'.symm (hne file)

/-- Writing the vault file in place, under the lock. -/
theorem beside_writeVault (c : Contents) :
    Beside m path View.NotV2 (Fx.write path c) (fun _ v => v.held = true) E := by
  have htrunc : (FileOp.truncate path).writes path = true := by simp [FileOp.writes]
  have hfill : (FileOp.fill path).writes path = true := by simp [FileOp.writes]
  have hother : ∀ (w : Disk) (c : Contents) (j : Nat),
      (w.put path c).fs (tmpPath path j) = w.fs (tmpPath path j) :=
    fun w c j => by simp [Function.update_of_ne (tmpPath_ne path j)]
  refine Fx.Among.bind (Q := fun _ => View.NotV2) ?_ fun _ => ?_
  · refine beside_write nofun htrunc (fun v hv => hv.held) (fun w j _ => hother w _ j)
      fun w v hv _ hfile => ⟨(), Torn.torn [], rfl, by simp, hv.keepsDataKey hfile, ?_⟩
    exact ⟨_, rfl, nofun⟩
  · exact beside_write nofun hfill (fun v hv => hv.held) (fun w j _ => hother w _ j)
      fun w v hv _ hfile => ⟨(), c, rfl, by simp, hv.keepsDataKey hfile, rfl⟩

/-- Writing the backup beside it. -/
theorem beside_writeBackup (c : Contents) :
    Beside m path View.NotV2 (Fx.write (backupPathFor path) c) (fun _ => View.NotV2) E := by
  have hne : backupPathFor path ≠ path := backupPathFor_ne path
  have htrunc : (FileOp.truncate (backupPathFor path)).writes path = false := by
    simp [FileOp.writes, hne]
  have hfill : (FileOp.fill (backupPathFor path)).writes path = false := by
    simp [FileOp.writes, hne]
  have hother : ∀ (w : Disk) (c : Contents) (q : Path),
      (q = path ∨ ∃ j, j ≠ m.pid ∧ q = tmpPath path j) →
        (w.put (backupPathFor path) c).fs q = w.fs q := by
    rintro w c q (rfl | ⟨j, -, rfl⟩)
    · simp [Function.update_of_ne hne.symm]
    · simp [Function.update_of_ne (tmpPath_ne_backupPathFor path path j)]
  refine Fx.Among.bind (Q := fun _ => View.NotV2) ?_ fun _ => ?_
  · exact beside_step nofun htrunc (fun w q hq => hother w _ q hq) fun w v hv _ _ => hv
  · exact beside_step nofun hfill (fun w q hq => hother w _ q hq) fun w v hv _ _ => hv

theorem beside_restrictToOwner {q : Path} (hE : ∀ v, P v → E v) :
    Beside m path P (restrictToOwner q) (fun _ => P) E := by
  refine Fx.Among.bind (Q := fun _ => P) ?_ fun _ => ?_
  · refine beside_check nofun rfl fun w v hv _ => ?_
    cases w.fs q with
    | none => exact hE v hv
    | some c => exact hv
  · refine beside_check nofun rfl fun w v hv _ => ?_
    cases w.fs q with
    | none => exact hE v hv
    | some c => exact hv

/-- `migrate_v1_to_v2` writes the vault file under the lock only. -/
theorem beside_migrate (passphrase : Str) :
    Beside m path View.NotV2 (migrateV1ToV2 path passphrase)
      (fun _ v => v.held = true) (fun _ => True) := by
  have hresult : ∀ {β : Type} (r : Result β), Beside m path View.NotV2
      (Fx.ofResult r) (fun _ => View.NotV2) (fun _ => True) := by
    refine fun r => Fx.Among.ofResult fun v hv => ?_
    cases r with
    | ok a => exact hv
    | error e => trivial
  have hrandom : Beside m path View.NotV2 Fx.random (fun _ => View.NotV2)
      (fun _ => True) :=
    beside_random fun _ _ hv => hv
  refine Fx.Among.bind (Q := fun _ => View.NotV2) ?_ fun body => ?_
  · refine (beside_readToString (Q := fun _ => View.NotV2) (fun _ _ hv _ => hv)
      fun _ _ => trivial).bind fun c => (hresult _).bind fun v1 => (hresult _).bind fun body => ?_
    refine (beside_writeBackup c).bind fun _ => ?_
    exact (beside_restrictToOwner fun _ _ => trivial).mapErr.bind fun _ =>
      Fx.Among.pure fun _ hv => hv
  · refine hrandom.bind fun _ => hrandom.bind fun _ => ?_
    refine hrandom.bind fun _ => hrandom.bind fun _ => ?_
    refine (hresult _).bind fun file => (beside_writeVault _).bind fun _ => ?_
    exact (beside_restrictToOwner fun _ _ => trivial).mapErr

end Migrate

end HearthVault
