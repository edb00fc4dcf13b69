/-
HearthVault.Lib.Footprint — the files that a program may change.

`Fx.Footprint S timed x A` looks at the calls of a program and at no run:
every operation, done or interrupted, leaves the files outside `S` alone, the
clock is read only when `timed`, and a value that the program ends with
satisfies `A`. It is defined by recursion on the program, so the rules for
`bind` and `mapEnd` are inductions with one case for each kind of call, and
the operations have one rule each.

What follows for a run is proved by the same induction: outside the footprint
the files stay (`run_fs`), without the clock the time does not matter
(`run_ticks`, `run_clock`), and a fault that the program cannot meet does not
either (`run_faults`). The last two compare runs on two machines, which a
rule about one run cannot do.
-/
import HearthVault.Lib.FileRules

namespace HearthVault.Files

variable {ν α β : Type}

/-- An operation that changes no file outside `S`, done or interrupted. -/
structure FileOp.Within (S : Set Path) (op : FileOp) (torn : Str → World ν → World ν)
    (act : World ν → Result β × World ν) : Prop where
  writes : ∀ p, op.writes p = true → p ∈ S
  act : ∀ w, World.Frame S w (act w).2
  torn : ∀ left w, World.Frame S w (torn left w)

namespace Fx

/-- `x` changes files of `S` only, reads the clock only when `timed`, and ends
with values that satisfy `A`. -/
def Footprint (S : Set Path) (timed : Bool) : Fx ν α → (α → Prop) → Prop
  | done r, A => ∀ a, r = .ok a → A a
  | query q k, A =>
    (timed = false → ∀ (m : Machine) (w : World ν), (q.answer m w).2.ticks = w.ticks) ∧
      ∀ b, (k b).Footprint S timed A
  | release _ k, A => k.Footprint S timed A
  | file op torn act k, A => op.Within S torn act ∧ ∀ r, (k r).Footprint S timed A

namespace Footprint

variable {S T : Set Path} {timed : Bool} {A : α → Prop} {B : β → Prop} {p : Path}

theorem pure {a : α} (h : A a) : (Pure.pure a : Fx ν α).Footprint S timed A := by
  rintro _ ⟨⟩
  exact h

theorem ofResult {r : Result α} (h : ∀ a, r = .ok a → A a) :
    (Fx.ofResult r : Fx ν α).Footprint S timed A :=
  h

/-- What `f` may change is asked only for values that `x` can end with. -/
theorem bind {x : Fx ν α} {f : α → Fx ν β} (hx : x.Footprint S timed A)
    (hf : ∀ a, A a → (f a).Footprint S timed B) : (x >>= f).Footprint S timed B := by
  rw [bind_eq]
  -- on the calls of `x`; where it has ended, `f` goes on
  induction x with
  | done r =>
    cases r with
    | ok a => exact hf a (hx a rfl)
    | error e => exact nofun
  | query q k ih => exact ⟨hx.1, fun b => ih b (hx.2 b)⟩
  | release q k ih => exact ih hx
  | file op torn act k ih => exact ⟨hx.1, fun r => ih r (hx.2 r)⟩

/-- Another end for a program, with the same calls. -/
theorem mapEnd {x : Fx ν α} {f : Result α → Fx ν β} (hx : x.Footprint S timed A)
    (hf : ∀ r, (∀ a, r = .ok a → A a) → (f r).Footprint S timed B) :
    (x.mapEnd f).Footprint S timed B := by
  induction x with
  | done r => exact hf r hx
  | query q k ih => exact ⟨hx.1, fun b => ih b (hx.2 b)⟩
  | release q k ih => exact ih hx
  | file op torn act k ih => exact ⟨hx.1, fun r => ih r (hx.2 r)⟩

/-- Nothing is said of the value any more. -/
theorem any {x : Fx ν α} (hx : x.Footprint S timed A) :
    x.Footprint S timed fun _ => True := by
  induction x with
  | done r => exact fun _ _ => trivial
  | query q k ih => exact ⟨hx.1, fun b => ih b (hx.2 b)⟩
  | release q k ih => exact ih hx
  | file op torn act k ih => exact ⟨hx.1, fun r => ih r (hx.2 r)⟩

/-- A caught error ends with a value of which nothing is known. -/
theorem attempt {x : Fx ν α} (hx : x.Footprint S timed A) :
    (Fx.attempt x).Footprint S timed fun r => ∀ a, r = .ok a → A a := by
  refine hx.mapEnd fun r hr => ?_
  rcases r with (_ | _ | _) | a
  · rintro _ ⟨⟩
    exact nofun
  · exact nofun
  · exact nofun
  · rintro _ ⟨⟩ _ ⟨⟩
    exact hr a rfl

theorem mapErr {f : String → String} {x : Fx ν α} (hx : x.Footprint S timed A) :
    (Fx.mapErr f x).Footprint S timed A :=
  hx.mapEnd fun _ hr _ ha => hr _ (Files.mapErr_eq_ok.mp ha)

theorem releasing {x : Fx ν α} (hx : x.Footprint S timed A) :
    (Fx.releasing p x).Footprint S timed A :=
  hx.mapEnd fun _ hr => hr

theorem when {c : Prop} [Decidable c] {x : Fx ν Unit} (hx : c → x.Footprint S timed fun _ => True) :
    (Fx.when c x).Footprint S timed fun _ => True := by
  unfold Fx.when
  split
  · rename_i hc
    exact hx hc
  · exact pure trivial

/-- After a guard its condition holds. -/
theorem ensure {c : Prop} [Decidable c] {msg : String} :
    (Fx.ensure c msg : Fx ν Unit).Footprint S timed fun _ => c := by
  refine ofResult fun _ h => ?_
  split at h
  · assumption
  · cases h

theorem unlock : (Fx.unlock p : Fx ν Unit).Footprint S timed fun _ => True :=
  fun _ _ => trivial

theorem pid : (Fx.pid : Fx ν Nat).Footprint S timed fun _ => True :=
  ⟨fun _ _ _ => rfl, fun _ => pure trivial⟩

/-- The only question that needs the clock. -/
theorem now : (Fx.now : Fx ν Int).Footprint S true fun _ => True :=
  ⟨nofun, fun _ => pure trivial⟩

theorem random : (Fx.random : Fx ν Nat).Footprint S timed fun _ => True :=
  ⟨fun _ _ _ => rfl, fun _ => pure trivial⟩

/-- One operation, whatever it answers. -/
theorem step {op : FileOp} {torn : Str → World ν → World ν} {act : World ν → Result α × World ν}
    (h : op.Within S torn act) : (Fx.step op torn act).Footprint S timed fun _ => True :=
  ⟨h, fun _ _ _ => trivial⟩

/-- An operation that writes no file. -/
theorem check {op : FileOp} {act : World ν → Result α} (hop : ∀ q, op.writes q = false) :
    (Fx.check op act).Footprint S timed fun _ => True :=
  step ⟨fun q hq => by simp [hop] at hq, fun w => .refl S w, fun _ w => .refl S w⟩

theorem pathExists : (Fx.pathExists p : Fx ν Bool).Footprint S timed fun _ => True := by
  refine (check fun _ => rfl).attempt.bind fun r _ => ?_
  cases r with
  | ok b => exact pure trivial
  | error e => exact pure trivial

theorem read : (Fx.read p : Fx ν ν).Footprint S timed fun _ => True :=
  check fun _ => rfl

/-- A removed file was one of `S`. -/
theorem remove (hp : p ∈ S) : (Fx.remove p : Fx ν Unit).Footprint S timed fun _ => True := by
  refine step ⟨by simp [FileOp.writes, hp], fun w => ?_, fun _ w => .refl S w⟩
  cases w.fs p with
  | none => exact .refl S w
  | some c => exact (World.Frame.refl S w).erase hp

/-- A rename changes two files, the old name and the new. -/
theorem rename {q : Path} (hp : p ∈ S) (hq : q ∈ S) :
    (Fx.rename p q : Fx ν Unit).Footprint S timed fun _ => True := by
  refine step ⟨?_, fun w => ?_, fun _ w => .refl S w⟩
  · rintro r hr
    obtain rfl | rfl : p = r ∨ q = r := by simpa [FileOp.writes] using hr
    · exact hp
    · exact hq
  · cases w.fs p with
    | none => exact .refl S w
    | some c => exact ((World.Frame.refl S w).erase hp).put hq c

variable [Torn ν]

/-- A file that is there already is not created. -/
theorem createNew (hp : p ∈ S) : (Fx.createNew p : Fx ν Unit).Footprint S timed fun _ => True := by
  refine step ⟨by simp [FileOp.writes, hp], fun w => ?_, fun _ w => .refl S w⟩
  cases w.fs p with
  | none => exact (World.Frame.refl S w).put hp _
  | some c => exact .refl S w

/-- What is emptied is one of `S`. -/
theorem truncate (hp : p ∈ S) : (Fx.truncate p : Fx ν Unit).Footprint S timed fun _ => True :=
  step ⟨by simp [FileOp.writes, hp], fun w => (World.Frame.refl S w).put hp _,
    fun _ w => .refl S w⟩

/-- A file that is filled is one of `S`, also when it is only partly filled. -/
theorem fill (hp : p ∈ S) (c : ν) : (Fx.fill p c).Footprint S timed fun _ => True :=
  step ⟨by simp [FileOp.writes, hp], fun w => (World.Frame.refl S w).put hp _,
    fun _ w => (World.Frame.refl S w).put hp _⟩

/-- `fs::write`, as the two operations that it is. -/
theorem write (hp : p ∈ S) (c : ν) : (Fx.write p c).Footprint S timed fun _ => True :=
  (truncate hp).bind fun _ _ => fill hp c

end Footprint

/-! ## Runs -/

section Runs

variable {S : Set Path} {A : α → Prop} {x : Fx ν α} {m : Machine} {w : World ν}

/-- A file outside the footprint is the same after any run. -/
theorem Footprint.run_fs (hx : x.Footprint S true A) {p : Path} (hp : p ∉ S) :
    (x.run m w).2.fs p = w.fs p := by
  induction x generalizing w with
  | done r => rfl
  | query q k ih =>
    have hanswer : (q.answer m w).2.fs = w.fs := by cases q <;> rfl
    exact (ih _ (hx.2 _)).trans (congrFun hanswer p)
  | release q k ih => exact ih hx
  | file op torn act k ih =>
    obtain ⟨hwithin, hk⟩ := hx
    simp only [run]
    -- an operation that is done or fails goes on, one that kills ends the run
    rcases m.next w op with _ | ⟨s | s⟩
    · exact (ih _ (hk _)).trans ((hwithin.act _).fs p hp)
    · exact (ih _ (hk _)).trans ((hwithin.torn _ _).fs p hp)
    · exact (hwithin.torn _ _).fs p hp

/-- A program that does not read the clock leaves the count of its readings. -/
theorem Footprint.run_ticks (hx : x.Footprint S false A) : (x.run m w).2.ticks = w.ticks := by
  induction x generalizing w with
  | done r => rfl
  | query q k ih => exact (ih _ (hx.2 _)).trans (hx.1 rfl m w)
  | release q k ih => exact ih hx
  | file op torn act k ih =>
    obtain ⟨hwithin, hk⟩ := hx
    simp only [run]
    rcases m.next w op with _ | ⟨s | s⟩
    · exact (ih _ (hk _)).trans (hwithin.act _).ticks
    · exact (ih _ (hk _)).trans (hwithin.torn _ _).ticks
    · exact (hwithin.torn _ _).ticks

/-- A program that does not read the clock runs the same at any time. -/
theorem Footprint.run_clock (hx : x.Footprint S false A) (clock : Nat → Int) :
    x.run { m with clock } w = x.run m w := by
  induction x generalizing w with
  | done r => rfl
  | query q k ih =>
    have hanswer : q.answer { m with clock } w = q.answer m w := by
      cases q with
      -- the only question whose answer the clock decides is one that counts
      | now => exact absurd (hx.1 rfl m w) (Nat.succ_ne_self w.ticks)
      | _ => rfl
    simp only [run, hanswer]
    exact ih _ (hx.2 _)
  | release q k ih => exact ih hx
  | file op torn act k ih =>
    obtain ⟨hwithin, hk⟩ := hx
    have hnext : Machine.next { m with clock } w op = m.next w op := rfl
    simp only [run, hnext]
    rcases m.next w op with _ | ⟨s | s⟩
    · exact ih _ (hk _)
    · exact ih _ (hk _)
    · rfl

/-- A program runs the same where no fault is changed that it can meet. -/
theorem Footprint.run_faults (hx : x.Footprint S true A)
    {faults : FileOp → Nat → Option Fault}
    (h : ∀ op, (∀ p, op.writes p = true → p ∈ S) → faults op = m.faults op) :
    x.run { m with faults } w = x.run m w := by
  induction x generalizing w with
  | done r => rfl
  | query q k ih =>
    have hanswer : q.answer { m with faults } w = q.answer m w := by cases q <;> rfl
    simp only [run, hanswer]
    exact ih _ (hx.2 _)
  | release q k ih => exact ih hx
  | file op torn act k ih =>
    obtain ⟨hwithin, hk⟩ := hx
    have hnext : Machine.next { m with faults } w op = m.next w op :=
      -- the fault is read off at an operation, and this one writes only files
      -- of `S`
      congrFun (h op hwithin.writes) (w.attempts op)
    simp only [run, hnext]
    rcases m.next w op with _ | ⟨s | s⟩
    · exact ih _ (hk _)
    · exact ih _ (hk _)
    · rfl

/-- A program that is not stopped ends with a value that satisfies `A`. -/
theorem Footprint.run_value (hx : x.Footprint S true A) {a : α} {w' : World ν}
    (h : x.run m w = (.ok a, w')) : A a := by
  induction x generalizing w with
  | done r =>
    cases r with
    | ok b => cases h; exact hx a rfl
    | error e => cases h
  | query q k ih => exact ih _ (hx.2 _) h
  | release q k ih => exact ih hx h
  | file op torn act k ih =>
    simp only [run] at h
    rcases hf : m.next w op with _ | ⟨s | s⟩ <;> simp only [hf] at h
    · exact ih _ (hx.2 _) h
    · exact ih _ (hx.2 _) h
    · cases h

/-- A file outside the footprint keeps what it satisfies. -/
theorem Footprint.keeps (hx : x.Footprint S true A) {p : Path} (hp : p ∉ S)
    {K : Option ν → Prop} : Fx.Keeps m p K x A := by
  intro w hw
  have hfs : (x.run m w).2.fs p = w.fs p := hx.run_fs hp
  rcases hr : x.run m w with ⟨r, w'⟩
  rw [hr] at hfs
  dsimp only at hfs
  rw [← hfs] at hw
  cases r with
  | ok a => exact ⟨hx.run_value hr, hw⟩
  | error e => exact hw

end Runs

end Fx

end HearthVault.Files
