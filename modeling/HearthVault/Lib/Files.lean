/-
HearthVault.Lib.Files — programs over a file system, with faults.

A program `Fx ν α` reads and writes files whose contents have type `ν`,
reads the clock, draws random values and may stop early. It runs on a
`Machine`, which fixes what the program cannot choose: the process id, the
clock readings, and which file operation meets with a `Fault`. Every
operation is one atomic step. A failing step answers an error to the
program, a killing step ends it there; either may leave a torn file behind
when the step was writing one.

A program is a tree of calls. `Fx.run` runs it on its own, and on a
`Faultless` machine each operation is then its plain effect on the `World`,
which is what the `_run` lemmas say. The `_eq_ok` lemmas say what a program
has met and done when it ended with a value.
-/
import HearthVault.Lib.Text
import Mathlib.Data.Set.Basic
import Mathlib.Logic.Function.Basic

namespace HearthVault.Files

/-! ## Worlds and machines -/

/-- A file path: the directory and the last component. -/
structure Path where
  dir : Str
  name : Str
  deriving DecidableEq, Repr

/-- `Path::with_file_name`. -/
def Path.withFileName (p : Path) (name : Str) : Path :=
  { p with name := name }

/-- `Path::display`. -/
def Path.display (p : Path) : Str :=
  p.dir ++ '/' :: p.name

/-- One atomic step on the file system. -/
inductive FileOp where
  | stat (p : Path)
  | read (p : Path)
  | truncate (p : Path)
  | createNew (p : Path)
  | fill (p : Path)
  | sync (p : Path)
  | rename (p q : Path)
  | remove (p : Path)
  | openExisting (p : Path)
  | chmod (p : Path)
  | mkdir (dir : Str)
  | openDir (dir : Str)
  | syncDir (dir : Str)
  | lock (p : Path)
  deriving DecidableEq, Repr

/-- A step that writes the file at `p` when it succeeds. -/
def FileOp.writes (p : Path) : FileOp → Bool
  | .truncate q | .createNew q | .fill q | .remove q => q = p
  | .rename q r => q = p ∨ r = p
  | _ => false

/-- What goes wrong with a step, and the part of the data an interrupted
write has got to the file. -/
inductive Fault where
  | fail (left : Str)
  | kill (left : Str)
  deriving DecidableEq, Repr

/-- Why a program stopped before its end. -/
inductive Halt where
  | err (msg : String)
  | panic (msg : String)
  | killed
  deriving DecidableEq, Repr

abbrev Result := Except Halt

/-- `anyhow::bail!`. -/
def bail {α : Type} (msg : String) : Result α :=
  .error (.err msg)

/-- `map_err`: another text for an error. -/
def mapErr {α : Type} (f : String → String) : Result α → Result α
  | .error (.err msg) => .error (.err (f msg))
  | r => r

@[simp] theorem result_ok_bind {α β : Type} (a : α) (f : α → Result β) :
    (.ok a : Result α) >>= f = f a := rfl

@[simp] theorem result_error_bind {α β : Type} (e : Halt) (f : α → Result β) :
    (.error e : Result α) >>= f = .error e := rfl

@[simp] theorem result_bind_eq_ok {α β : Type} {x : Result α} {f : α → Result β} {b : β} :
    x >>= f = .ok b ↔ ∃ a, x = .ok a ∧ f a = .ok b := by
  cases x with
  | error e => simp [bind, Except.bind]
  | ok a => simp [bind, Except.bind]

theorem mapErr_eq_ok {α : Type} {f : String → String} {r : Result α} {a : α} :
    mapErr f r = .ok a ↔ r = .ok a := by
  rcases r with (_ | _ | _) | _ <;> simp [mapErr]

/-- A type of file contents that has incomplete files. -/
class Torn (ν : Type) where
  torn : Str → ν

/-- What a program runs on. `faults op n` is the fault of the `n`-th attempt
at `op`. -/
structure Machine where
  pid : Nat
  clock : Nat → Int
  faults : FileOp → Nat → Option Fault

def Machine.Faultless (m : Machine) : Prop :=
  ∀ op n, m.faults op n = none

/-- A machine without faults whose clock stands still. -/
def Machine.quiet : Machine where
  pid := 1
  clock _ := 0
  faults _ _ := none

theorem Machine.quiet_faultless : Machine.quiet.Faultless :=
  fun _ _ => rfl

/-- A machine on which the first attempt at one step meets a fault. -/
def Machine.faultyAt (op : FileOp) (fault : Fault) : Machine :=
  { Machine.quiet with faults op' n := if op' = op ∧ n = 0 then some fault else none }

/-- The state a program works on: the files, the supply of random values,
and how often the clock was read and each step attempted. -/
structure World (ν : Type) where
  fs : Path → Option ν
  rng : Nat
  ticks : Nat
  attempts : FileOp → Nat

variable {ν : Type}

/-- A disk with one file, and the first of the random values still to draw. -/
def World.single (p : Path) (c : ν) (rng : Nat) : World ν :=
  ⟨Function.update (fun _ => none) p (some c), rng, 0, fun _ => 0⟩

def World.put (w : World ν) (p : Path) (c : ν) : World ν :=
  { w with fs := Function.update w.fs p (some c) }

def World.erase (w : World ν) (p : Path) : World ν :=
  { w with fs := Function.update w.fs p none }

theorem World.erase_of_absent (w : World ν) {p : Path} (h : w.fs p = none) : w.erase p = w := by
  rw [World.erase, ← h, Function.update_eq_self]

def World.tick (w : World ν) (op : FileOp) : World ν :=
  { w with attempts := Function.update w.attempts op (w.attempts op + 1) }

@[simp] theorem World.put_fs (w : World ν) (p : Path) (c : ν) :
    (w.put p c).fs = Function.update w.fs p (some c) := rfl
@[simp] theorem World.put_rng (w : World ν) (p : Path) (c : ν) : (w.put p c).rng = w.rng := rfl
@[simp] theorem World.put_ticks (w : World ν) (p : Path) (c : ν) :
    (w.put p c).ticks = w.ticks := rfl
@[simp] theorem World.put_attempts (w : World ν) (p : Path) (c : ν) :
    (w.put p c).attempts = w.attempts := rfl
@[simp] theorem World.erase_fs (w : World ν) (p : Path) :
    (w.erase p).fs = Function.update w.fs p none := rfl
@[simp] theorem World.erase_rng (w : World ν) (p : Path) : (w.erase p).rng = w.rng := rfl
@[simp] theorem World.erase_ticks (w : World ν) (p : Path) : (w.erase p).ticks = w.ticks := rfl
@[simp] theorem World.erase_attempts (w : World ν) (p : Path) :
    (w.erase p).attempts = w.attempts := rfl
@[simp] theorem World.tick_fs (w : World ν) (op : FileOp) : (w.tick op).fs = w.fs := rfl
@[simp] theorem World.tick_rng (w : World ν) (op : FileOp) : (w.tick op).rng = w.rng := rfl
@[simp] theorem World.tick_ticks (w : World ν) (op : FileOp) : (w.tick op).ticks = w.ticks := rfl

/-- The fault that the next attempt at a step meets with. -/
def Machine.next (m : Machine) (w : World ν) (op : FileOp) : Option Fault :=
  m.faults op (w.attempts op)

@[simp] theorem Machine.next_put (m : Machine) (w : World ν) (p : Path) (c : ν) (op : FileOp) :
    m.next (w.put p c) op = m.next w op := rfl
@[simp] theorem Machine.next_erase (m : Machine) (w : World ν) (p : Path) (op : FileOp) :
    m.next (w.erase p) op = m.next w op := rfl

theorem Machine.next_tick_of_ne (m : Machine) (w : World ν) {op op' : FileOp} (h : op ≠ op') :
    m.next (w.tick op') op = m.next w op := by
  simp [Machine.next, World.tick, Function.update_of_ne h]

theorem Machine.Faultless.next {m : Machine} (hm : m.Faultless) (w : World ν) (op : FileOp) :
    m.next w op = none :=
  hm op _

/-! ## Programs -/

/-- What a program asks of its machine besides file operations. -/
inductive Query : Type → Type where
  | pid : Query Nat
  | now : Query Int
  | random : Query Nat

/-- The answer to a query. A random value is different from every value drawn
before. -/
def Query.answer (m : Machine) (w : World ν) {β : Type} : Query β → β × World ν
  | .pid => (m.pid, w)
  | .now => (m.clock w.ticks, { w with ticks := w.ticks + 1 })
  | .random => (w.rng, { w with rng := w.rng + 1 })

/-- A program: it has ended with an answer, or it makes a call and goes on
with what the call answers. A `file` call is one atomic step `act`; `torn` is
its effect when it is interrupted. `release` gives a lock back. -/
inductive Fx (ν α : Type) : Type 1 where
  | done (r : Result α)
  | query {β : Type} (q : Query β) (k : β → Fx ν α)
  | file {β : Type} (op : FileOp) (torn : Str → World ν → World ν)
      (act : World ν → Result β × World ν) (k : Result β → Fx ν α)
  | release (p : Path) (k : Fx ν α)

namespace Fx

variable {α β : Type}

/-- Run a program on its own, up to its end or to a step that kills it. -/
def run : Fx ν α → Machine → World ν → Result α × World ν
  | done r, _, w => (r, w)
  | query q k, m, w => (k (q.answer m w).1).run m (q.answer m w).2
  | file op torn act k, m, w =>
    match m.next w op with
    | none => (k (act (w.tick op)).1).run m (act (w.tick op)).2
    | some (.fail s) => (k (bail "I/O error")).run m (torn s (w.tick op))
    | some (.kill s) => (.error .killed, torn s (w.tick op))
  | release _ k, m, w => k.run m w

/-- Go on with another program once this one has ended with a value. -/
def bind : Fx ν α → (α → Fx ν β) → Fx ν β
  | done (.ok a), f => f a
  | done (.error h), _ => done (.error h)
  | query q k, f => query q fun b => (k b).bind f
  | file op torn act k, f => file op torn act fun r => (k r).bind f
  | release p k, f => release p (k.bind f)

instance : Monad (Fx ν) where
  pure a := done (.ok a)
  bind := bind

/-- A computed answer. -/
def ofResult (r : Result α) : Fx ν α :=
  done r

/-- A program that runs only under a condition. -/
def when (c : Prop) [Decidable c] (x : Fx ν Unit) : Fx ν Unit :=
  if c then x else pure ()

/-- `anyhow::bail!` unless a condition holds. -/
def ensure (c : Prop) [Decidable c] (msg : String) : Fx ν Unit :=
  ofResult (if c then .ok () else bail msg)

/-- Another end for a program. -/
def mapEnd (f : Result α → Fx ν β) : Fx ν α → Fx ν β
  | done r => f r
  | query q k => query q fun b => (k b).mapEnd f
  | file op torn act k => file op torn act fun r => (k r).mapEnd f
  | release p k => release p (k.mapEnd f)

end Fx

/-- The error of an answer as a value; a panic is not caught. -/
def caught {α : Type} : Result α → Result (Except String α)
  | .ok a => .ok (.ok a)
  | .error (.err msg) => .ok (.error msg)
  | .error h => .error h

namespace Fx

variable {α β : Type}

/-- `?` caught: the error as a value. -/
def attempt (x : Fx ν α) : Fx ν (Except String α) :=
  x.mapEnd fun r => done (caught r)

/-- `map_err` of a program. -/
def mapErr (f : String → String) (x : Fx ν α) : Fx ν α :=
  x.mapEnd fun r => done (Files.mapErr f r)

/-- A program that gives a lock back however it ends. -/
def releasing (p : Path) (x : Fx ν α) : Fx ν α :=
  x.mapEnd fun r => release p (done r)

theorem bind_eq (x : Fx ν α) (f : α → Fx ν β) : x >>= f = x.bind f := rfl

/-- A sequence may be cut anywhere. -/
instance : LawfulMonad (Fx ν) := by
  refine .mk' _ (fun x => ?_) (fun _ _ => rfl) fun x f g => ?_
  · change x.bind (fun a => done (.ok a)) = x
    induction x with
    | done r => cases r <;> rfl
    | query q k ih => exact congrArg (query q) (funext ih)
    | file op torn act k ih => exact congrArg (file op torn act) (funext ih)
    | release p k ih => exact congrArg (release p) ih
  · change (x.bind f).bind g = x.bind fun a => (f a).bind g
    induction x with
    | done r => cases r <;> rfl
    | query q k ih => exact congrArg (query q) (funext ih)
    | file op torn act k ih => exact congrArg (file op torn act) (funext ih)
    | release p k ih => exact congrArg (release p) ih

@[simp] theorem ofResult_ok_bind (a : α) (f : α → Fx ν β) : ofResult (.ok a) >>= f = f a := rfl

@[simp] theorem done_run (r : Result α) (m : Machine) (w : World ν) :
    (done r : Fx ν α).run m w = (r, w) := rfl

@[simp] theorem pure_run (a : α) (m : Machine) (w : World ν) :
    (pure a : Fx ν α).run m w = (.ok a, w) := rfl

theorem bind_run (x : Fx ν α) (f : α → Fx ν β) (m : Machine) (w : World ν) :
    (x >>= f).run m w =
      match x.run m w with
      | (.ok a, w) => (f a).run m w
      | (.error h, w) => (.error h, w) := by
  rw [bind_eq]
  induction x generalizing w with
  | done r => cases r <;> rfl
  | query q k ih => exact ih _ _
  | release p k ih => exact ih _
  | file op torn act k ih =>
    simp only [bind, run]
    rcases m.next w op with _ | ⟨s | s⟩
    · exact ih _ _
    · exact ih _ _
    · rfl

/-- The end of a program, run on its own: a kill comes before any end. -/
theorem mapEnd_run {f : Result α → Fx ν β} (hf : ∀ m w, (f (.error .killed)).run m w =
    (.error .killed, w)) (x : Fx ν α) (m : Machine) (w : World ν) :
    (x.mapEnd f).run m w = (f (x.run m w).1).run m (x.run m w).2 := by
  induction x generalizing w with
  | done r => rfl
  | query q k ih => exact ih _ _
  | release p k ih => exact ih _
  | file op torn act k ih =>
    simp only [mapEnd, run]
    rcases m.next w op with _ | ⟨s | s⟩
    · exact ih _ _
    · exact ih _ _
    · exact (hf _ _).symm

theorem attempt_run (x : Fx ν α) (m : Machine) (w : World ν) :
    (attempt x).run m w = (caught (x.run m w).1, (x.run m w).2) :=
  mapEnd_run (fun _ _ => rfl) x m w

theorem mapErr_run (f : String → String) (x : Fx ν α) (m : Machine) (w : World ν) :
    (mapErr f x).run m w = (Files.mapErr f (x.run m w).1, (x.run m w).2) :=
  mapEnd_run (fun _ _ => rfl) x m w

@[simp] theorem releasing_run (p : Path) (x : Fx ν α) (m : Machine) (w : World ν) :
    (releasing p x).run m w = x.run m w :=
  mapEnd_run (fun _ _ => rfl) x m w

theorem bind_run_ok {x : Fx ν α} {f : α → Fx ν β} {m : Machine} {w w' : World ν} {a : α}
    (h : x.run m w = (.ok a, w')) : (x >>= f).run m w = (f a).run m w' := by
  rw [bind_run, h]

theorem bind_run_error {x : Fx ν α} {f : α → Fx ν β} {m : Machine} {w w' : World ν} {e : Halt}
    (h : x.run m w = (.error e, w')) : (x >>= f).run m w = (.error e, w') := by
  rw [bind_run, h]

/-- What a finished sequence did: its first part finished, then its second. -/
theorem bind_eq_ok {x : Fx ν α} {f : α → Fx ν β} {m : Machine} {w w' : World ν} {b : β} :
    (x >>= f).run m w = (.ok b, w') ↔
      ∃ a v, x.run m w = (.ok a, v) ∧ (f a).run m v = (.ok b, w') := by
  rw [bind_run]
  rcases x.run m w with ⟨_ | a, v⟩
  · simp
  · constructor
    · exact fun h => ⟨a, v, rfl, h⟩
    · rintro ⟨_, _, ⟨⟩, h⟩
      exact h

theorem pure_eq_ok {a b : α} {m : Machine} {w w' : World ν} :
    (pure a : Fx ν α).run m w = (.ok b, w') ↔ a = b ∧ w = w' := by
  simp

@[simp] theorem ofResult_run (r : Result α) (m : Machine) (w : World ν) :
    (ofResult r : Fx ν α).run m w = (r, w) := rfl

theorem ensure_run {c : Prop} [Decidable c] (hc : c) (msg : String) (m : Machine) (w : World ν) :
    (ensure c msg : Fx ν Unit).run m w = (.ok (), w) := by
  simp [ensure, hc]

theorem ensure_eq_ok {c : Prop} [Decidable c] {msg : String} {m : Machine} {w w' : World ν}
    {u : Unit} : (ensure c msg : Fx ν Unit).run m w = (.ok u, w') ↔ c ∧ w = w' := by
  by_cases h : c <;> simp [ensure, h, bail]

/-- The process id. -/
def pid : Fx ν Nat :=
  query .pid pure

/-- `Utc::now()`. -/
def now : Fx ν Int :=
  query .now pure

/-- A random value. -/
def random : Fx ν Nat :=
  query .random pure

/-- Give a lock back. -/
def unlock (p : Path) : Fx ν Unit :=
  release p (pure ())

/-- One step on the file system. -/
def step (op : FileOp) (torn : Str → World ν → World ν)
    (act : World ν → Result α × World ν) : Fx ν α :=
  file op torn act done

@[simp] theorem pid_run (m : Machine) (w : World ν) : (pid : Fx ν Nat).run m w = (.ok m.pid, w) :=
  rfl

@[simp] theorem now_run (m : Machine) (w : World ν) :
    (now : Fx ν Int).run m w = (.ok (m.clock w.ticks), { w with ticks := w.ticks + 1 }) := rfl

@[simp] theorem random_run (m : Machine) (w : World ν) :
    (random : Fx ν Nat).run m w = (.ok w.rng, { w with rng := w.rng + 1 }) := rfl

@[simp] theorem unlock_run (p : Path) (m : Machine) (w : World ν) :
    (unlock p : Fx ν Unit).run m w = (.ok (), w) := rfl

theorem step_run_eq (op : FileOp) (torn : Str → World ν → World ν)
    (act : World ν → Result α × World ν) (m : Machine) (w : World ν) :
    (step op torn act).run m w =
      match m.next w op with
      | none => act (w.tick op)
      | some (.fail s) => (bail "I/O error", torn s (w.tick op))
      | some (.kill s) => (.error .killed, torn s (w.tick op)) := by
  simp only [step, run]

/-- A step that changes no file. -/
def check (op : FileOp) (act : World ν → Result α) : Fx ν α :=
  step op (fun _ w => w) fun w => (act w, w)

/-- `Path::exists`: an error reads as absence. -/
def pathExists (p : Path) : Fx ν Bool := do
  match ← attempt (check (.stat p) fun w => .ok (w.fs p).isSome) with
  | .ok b => pure b
  | .error _ => pure false

/-- `fs::read`. -/
def read (p : Path) : Fx ν ν :=
  check (.read p) fun w =>
    match w.fs p with
    | some c => .ok c
    | none => bail "No such file or directory"

/-- `fs::remove_file`. -/
def remove (p : Path) : Fx ν Unit :=
  step (.remove p) (fun _ w => w) fun w =>
    match w.fs p with
    | some _ => (.ok (), w.erase p)
    | none => (bail "No such file or directory", w)

/-- `fs::rename`: the destination is replaced in the same step. -/
def rename (p q : Path) : Fx ν Unit :=
  step (.rename p q) (fun _ w => w) fun w =>
    match w.fs p with
    | some c => (.ok (), (w.erase p).put q c)
    | none => (bail "No such file or directory", w)

/-- `fs::metadata`. -/
def metadata (p : Path) : Fx ν Unit :=
  check (.stat p) fun w => if (w.fs p).isSome then .ok () else bail "No such file or directory"

/-- Open a file for writing without emptying it. -/
def openExisting (p : Path) : Fx ν Unit :=
  check (.openExisting p) fun w =>
    if (w.fs p).isSome then .ok () else bail "No such file or directory"

/-- `fs::set_permissions`. -/
def chmod (p : Path) : Fx ν Unit :=
  check (.chmod p) fun w => if (w.fs p).isSome then .ok () else bail "No such file or directory"

/-- `File::sync_all`. -/
def sync (p : Path) : Fx ν Unit :=
  check (.sync p) fun _ => .ok ()

/-- `fs::create_dir_all`. -/
def mkdir (dir : Str) : Fx ν Unit :=
  check (.mkdir dir) fun _ => .ok ()

/-- `File::open` of a directory. -/
def openDir (dir : Str) : Fx ν Unit :=
  check (.openDir dir) fun _ => .ok ()

/-- `File::sync_all` of a directory. -/
def syncDir (dir : Str) : Fx ν Unit :=
  check (.syncDir dir) fun _ => .ok ()

/-- An exclusive advisory lock. -/
def lock (p : Path) : Fx ν Unit :=
  check (.lock p) fun _ => .ok ()

section Write

variable [Torn ν]

/-- Create a file that must not exist yet (`create_new`). -/
def createNew (p : Path) : Fx ν Unit :=
  step (.createNew p) (fun _ w => w) fun w =>
    match w.fs p with
    | some _ => (bail "File exists", w)
    | none => (.ok (), w.put p (Torn.torn []))

/-- Open for writing, creating the file or emptying it. -/
def truncate (p : Path) : Fx ν Unit :=
  step (.truncate p) (fun _ w => w) fun w => (.ok (), w.put p (Torn.torn []))

/-- Write the whole contents into an open empty file. -/
def fill (p : Path) (c : ν) : Fx ν Unit :=
  step (.fill p) (fun s w => w.put p (Torn.torn s)) fun w => (.ok (), w.put p c)

/-- `fs::write`: empty the file, then write it. -/
def write (p : Path) (c : ν) : Fx ν Unit := do
  truncate p
  fill p c

end Write

/-! ## Effects without and with a fault -/

variable {m : Machine}

section Step

variable {op : FileOp} {torn : Str → World ν → World ν} {act : World ν → Result α × World ν}
  {w w' : World ν} {a : α}

theorem step_of_none (h : m.next w op = none) : (step op torn act).run m w = act (w.tick op) := by
  simp only [step_run_eq, h]

theorem step_of_fail {s : Str} (h : m.next w op = some (.fail s)) :
    (step op torn act).run m w = (bail "I/O error", torn s (w.tick op)) := by
  simp only [step_run_eq, h]

theorem step_of_kill {s : Str} (h : m.next w op = some (.kill s)) :
    (step op torn act).run m w = (.error .killed, torn s (w.tick op)) := by
  simp only [step_run_eq, h]

/-- A step that was done met with no fault. -/
theorem step_eq_ok : (step op torn act).run m w = (.ok a, w') ↔
    m.next w op = none ∧ act (w.tick op) = (.ok a, w') := by
  rcases hf : m.next w op with _ | ⟨s | s⟩
  · simp [step_of_none hf]
  · simp [step_of_fail hf, bail]
  · simp [step_of_kill hf]

end Step

theorem check_eq_ok {op : FileOp} {act : World ν → Result α} {w w' : World ν} {a : α} :
    (check op act).run m w = (.ok a, w') ↔
      m.next w op = none ∧ act (w.tick op) = .ok a ∧ w.tick op = w' := by
  simp [check, step_eq_ok]

theorem read_eq_ok {p : Path} {w w' : World ν} {c : ν} : (read p).run m w = (.ok c, w') ↔
    m.next w (.read p) = none ∧ w.fs p = some c ∧ w.tick (.read p) = w' := by
  rw [read, check_eq_ok]
  cases h : w.fs p <;> simp [h, bail]

theorem metadata_eq_ok {p : Path} {w w' : World ν} {u : Unit} :
    (metadata p).run m w = (.ok u, w') ↔
    m.next w (.stat p) = none ∧ (w.fs p).isSome ∧ w.tick (.stat p) = w' := by
  rw [metadata, check_eq_ok]
  cases h : w.fs p <;> simp [h, bail]

theorem chmod_eq_ok {p : Path} {w w' : World ν} {u : Unit} :
    (chmod p).run m w = (.ok u, w') ↔
    m.next w (.chmod p) = none ∧ (w.fs p).isSome ∧ w.tick (.chmod p) = w' := by
  rw [chmod, check_eq_ok]
  cases h : w.fs p <;> simp [h, bail]

theorem write_eq_ok [Torn ν] {p : Path} {w w' : World ν} {c : ν} {u : Unit} :
    (write p c).run m w = (.ok u, w') ↔
      m.next w (.truncate p) = none ∧ m.next w (.fill p) = none ∧
      (((w.tick (.truncate p)).put p (Torn.torn [])).tick (.fill p)).put p c = w' := by
  simp only [write, truncate, fill, bind_eq_ok, step_eq_ok]
  constructor
  · rintro ⟨_, _, ⟨htrunc, ⟨⟩⟩, hfill, ⟨⟩⟩
    rw [Machine.next_put, Machine.next_tick_of_ne _ _ (by simp)] at hfill
    exact ⟨htrunc, hfill, rfl⟩
  · rintro ⟨htrunc, hfill, rfl⟩
    refine ⟨(), _, ⟨htrunc, rfl⟩, ?_, rfl⟩
    rw [Machine.next_put, Machine.next_tick_of_ne _ _ (by simp), hfill]

theorem createNew_eq_ok [Torn ν] {p : Path} {w w' : World ν} {u : Unit} :
    (createNew p).run m w = (.ok u, w') ↔ m.next w (.createNew p) = none ∧ w.fs p = none ∧
      (w.tick (.createNew p)).put p (Torn.torn []) = w' := by
  rw [createNew, step_eq_ok]
  cases hfs : w.fs p <;> simp [hfs, bail]

theorem attempt_eq_ok {x : Fx ν α} {w w' : World ν} {a : α} :
    (attempt x).run m w = (.ok (.ok a), w') ↔ x.run m w = (.ok a, w') := by
  rw [attempt_run]
  rcases x.run m w with ⟨(_ | _ | _) | _, v⟩ <;> simp [caught]

theorem mapErr_eq_ok {f : String → String} {x : Fx ν α} {w w' : World ν} {a : α} :
    (mapErr f x).run m w = (.ok a, w') ↔ x.run m w = (.ok a, w') := by
  simp [mapErr_run, Prod.ext_iff, Files.mapErr_eq_ok]

theorem ofResult_eq_ok {r : Result α} {w w' : World ν} {a : α} :
    (ofResult r : Fx ν α).run m w = (.ok a, w') ↔ r = .ok a ∧ w = w' := by
  simp

theorem step_run (hm : m.Faultless) (op : FileOp) (torn : Str → World ν → World ν)
    (act : World ν → Result α × World ν) (w : World ν) :
    (step op torn act).run m w = act (w.tick op) :=
  step_of_none (hm.next w op)

theorem check_run (hm : m.Faultless) (op : FileOp) (act : World ν → Result α) (w : World ν) :
    (check op act).run m w = (act (w.tick op), w.tick op) := by
  rw [check, step_run hm]

theorem pathExists_run (hm : m.Faultless) (p : Path) (w : World ν) :
    (pathExists p).run m w = (.ok (w.fs p).isSome, w.tick (.stat p)) := by
  simp [pathExists, bind_run, attempt_run, caught, check_run hm]

theorem read_run (hm : m.Faultless) {p : Path} {w : World ν} {c : ν} (h : w.fs p = some c) :
    (read p).run m w = (.ok c, w.tick (.read p)) := by
  simp [read, check_run hm, h]

end Fx

end HearthVault.Files
