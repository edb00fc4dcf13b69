/-
HearthVault.Lib.FileRules — rules of reasoning about programs over files.

`Fx.Meets` is the rule of pre- and postconditions for one run under any
faults; its postcondition has two halves, one for a program that ends with a
value and one for a program that is stopped, so that a single statement says
what a crash leaves behind. Everything else rests on it:

* `World.Frame` says what a run leaves alone;
* `Fx.Keeps` says what a file may hold at every moment of a run;
* `Fx.Related` compares two runs side by side;
* `Fx.Answers` and `Fx.Timed` are for programs that only read.

Each notion has one rule for `pure`, one for `bind` and one for each
operation; those of `Meets` and `Keeps` come from `Meets.step`, the place where the
three outcomes of an operation (done, failed, killed) are told apart. A proof
about a program follows its text: `bind` for each line, and the rule of the
operation that stands there.
-/
import HearthVault.Lib.Files

namespace HearthVault.Files

variable {ν : Type}

/-! ## Rules for one run -/

/-- From a world that satisfies `P`, the program ends with a value and a
world that satisfy `Q`, or is stopped in a world that satisfies `E`. -/
def Fx.Meets {α : Type} (m : Machine) (P : World ν → Prop) (x : Fx ν α)
    (Q : α → World ν → Prop) (E : World ν → Prop) : Prop :=
  ∀ w, P w → match x.run m w with
    | (.ok a, w') => Q a w'
    | (.error _, w') => E w'

/-- Two runs on one machine from related worlds end in related worlds, with
related values or with the same stop. -/
def Fx.Related {α β : Type} (m : Machine) (R : World ν → World ν → Prop) (x : Fx ν α)
    (y : Fx ν β) (A : α → β → Prop) : Prop :=
  ∀ w v, R w v → R (x.run m w).2 (y.run m v).2 ∧
    match (x.run m w).1, (y.run m v).1 with
    | .ok a, .ok b => A a b
    | .error h, .error h' => h = h'
    | _, _ => False

/-- Nothing but the files of `S` has changed; steps may have been attempted. -/
structure World.Frame (S : Set Path) (w w' : World ν) : Prop where
  fs : ∀ q, q ∉ S → w'.fs q = w.fs q
  rng : w'.rng = w.rng
  ticks : w'.ticks = w.ticks

namespace World.Frame

variable {S T : Set Path} {w v u : World ν}

@[refl] theorem refl (S : Set Path) (w : World ν) : Frame S w w :=
  ⟨fun _ _ => rfl, rfl, rfl⟩

/-- Two runs one after the other, each with its own files. -/
theorem trans (h : Frame S w v) (h' : Frame S v u) : Frame S w u :=
  ⟨fun q hq => (h'.fs q hq).trans (h.fs q hq), h'.rng.trans h.rng, h'.ticks.trans h.ticks⟩

theorem mono (h : Frame S w v) (hST : S ⊆ T) : Frame T w v :=
  ⟨fun q hq => h.fs q fun hS => hq (hST hS), h.rng, h.ticks⟩

/-- An attempt that changes nothing is no change. -/
theorem tick (h : Frame S w v) (op : FileOp) : Frame S w (v.tick op) :=
  ⟨h.fs, h.rng, h.ticks⟩

theorem put (h : Frame S w v) {p : Path} (hp : p ∈ S) (c : ν) : Frame S w (v.put p c) := by
  refine ⟨fun q hq => ?_, h.rng, h.ticks⟩
  have hne : q ≠ p := fun he => hq (he ▸ hp)
  rw [put_fs, Function.update_of_ne hne, h.fs q hq]

theorem erase (h : Frame S w v) {p : Path} (hp : p ∈ S) : Frame S w (v.erase p) := by
  refine ⟨fun q hq => ?_, h.rng, h.ticks⟩
  have hne : q ≠ p := fun he => hq (he ▸ hp)
  rw [erase_fs, Function.update_of_ne hne, h.fs q hq]

end World.Frame

/-- The file at `p` has not changed; random values may have been drawn. -/
structure World.Kept (p : Path) (w w' : World ν) : Prop where
  fs : w'.fs p = w.fs p
  rng : w.rng ≤ w'.rng

theorem World.Frame.kept {S : Set Path} {w w' : World ν} (h : w.Frame S w') {p : Path}
    (hp : p ∉ S) : w.Kept p w' :=
  ⟨h.fs p hp, h.rng.ge⟩

namespace Fx

variable {α β γ δ : Type} {m : Machine}

section Meets

variable {P : World ν → Prop} {Q : α → World ν → Prop} {E : World ν → Prop}

/-- A value is an end where `Q` already holds of it. -/
theorem Meets.pure {a : α} (h : ∀ w, P w → Q a w) : Meets m P (Pure.pure a) Q E :=
  fun w hw => h w hw

/-- A pure computation ends in the world that it began in. -/
theorem Meets.ofResult {r : Result α}
    (h : ∀ w, P w → match r with | .ok a => Q a w | .error _ => E w) :
    Meets m P (Fx.ofResult r) Q E := by
  intro w hw
  have := h w hw
  cases r with
  | ok a => exact this
  | error e => exact this

/-- What the first program ends in is where the second one begins; a stop of
either is a stop. -/
theorem Meets.bind {S : β → World ν → Prop} {x : Fx ν α} {f : α → Fx ν β}
    (hx : Meets m P x Q E) (hf : ∀ a, Meets m (Q a) (f a) S E) : Meets m P (x >>= f) S E := by
  intro w hw
  have h := hx w hw
  rw [bind_run]
  rcases hr : x.run m w with ⟨r, w'⟩
  rw [hr] at h
  cases r with
  | ok a => exact hf a w' h
  | error e => exact h

/-- The process id is known from the machine. -/
theorem Meets.pid {S : α → World ν → Prop} {f : Nat → Fx ν α} (h : Meets m P (f m.pid) S E) :
    Meets m P (Fx.pid >>= f) S E :=
  h

/-- A guard that holds is no step; one that does not hold stops the program. -/
theorem Meets.ensure {c : Prop} [Decidable c] {msg : String} {Q : Unit → World ν → Prop}
    (hQ : ∀ w, P w → c → Q () w) (hE : ∀ w, P w → E w) : Meets m P (Fx.ensure c msg) Q E := by
  by_cases h : c
  · exact fun w hw => by simpa [Fx.ensure, h] using hQ w hw h
  · exact fun w hw => by simpa [Fx.ensure, h, bail] using hE w hw

/-- What is known of a value before a program that does not change it. -/
theorem Meets.fact {φ : Prop} {x : Fx ν α} (h : φ → Meets m P x Q E) :
    Meets m (fun w => P w ∧ φ) x Q E :=
  fun w hw => h hw.2 w hw.1

/-- A caught error is a value; what kills the program is not caught. -/
theorem Meets.attempt {x : Fx ν α} (hx : Meets m P x Q E) :
    Meets m P (Fx.attempt x)
      (fun r w => match r with | .ok a => Q a w | .error _ => E w) E := by
  intro w hw
  have h := hx w hw
  rcases hr : x.run m w with ⟨r, w'⟩
  rw [hr] at h
  rw [attempt_run, hr]
  cases r with
  | ok a => exact h
  | error e => cases e <;> exact h

/-- Dropping a lock changes no file. -/
theorem Meets.releasing {p : Path} {x : Fx ν α} (hx : Meets m P x Q E) :
    Meets m P (Fx.releasing p x) Q E := by
  intro w hw
  rw [releasing_run]
  exact hx w hw

/-- The text of an error is nothing that `E` speaks of. -/
theorem Meets.mapErr {f : String → String} {x : Fx ν α} (hx : Meets m P x Q E) :
    Meets m P (Fx.mapErr f x) Q E := by
  intro w hw
  have h := hx w hw
  rcases hr : x.run m w with ⟨r, w'⟩
  rw [hr] at h
  rw [mapErr_run, hr]
  rcases r with (_ | _ | _) | a <;> exact h

/-- One operation, in its three cases: it is done, it fails, or the program dies
in it. Both of the last leave what the operation had torn. -/
theorem Meets.step {op : FileOp} {torn : Str → World ν → World ν}
    {act : World ν → Result α × World ν} (ht : ∀ w s, P w → E (torn s (w.tick op)))
    (ha : ∀ w, P w → match act (w.tick op) with
      | (.ok a, w') => Q a w'
      | (.error _, w') => E w') : Meets m P (Fx.step op torn act) Q E := by
  intro w hw
  have hact := ha w hw
  -- done, failed, killed
  rcases hf : m.next w op with _ | ⟨s | s⟩ <;> simp only [step_run_eq, hf]
  · exact hact
  · exact ht w s hw
  · exact ht w s hw

/-- Consequence: a weaker end from a stronger start. -/
theorem Meets.weaken {P' : World ν → Prop} {Q' : α → World ν → Prop}
    {E' : World ν → Prop} {x : Fx ν α} (hx : Meets m P x Q E) (hP : ∀ w, P' w → P w)
    (hQ : ∀ a w, Q a w → Q' a w) (hE : ∀ w, E w → E' w) : Meets m P' x Q' E' := by
  intro w hw
  have h := hx w (hP w hw)
  rcases hr : x.run m w with ⟨r, w'⟩
  rw [hr] at h
  cases r with
  | ok a => exact hQ a w' h
  | error e => exact hE w' h

/-- A step that changes no file keeps what does not speak of attempts. -/
theorem Meets.check {op : FileOp} {act : World ν → Result α}
    (hP : ∀ w, P w → P (w.tick op)) : Meets m P (Fx.check op act) (fun _ => P) P := by
  refine Meets.step (fun w _ hw => hP w hw) fun w hw => ?_
  have := hP w hw
  cases act (w.tick op) with
  | ok a => exact this
  | error e => exact this

end Meets

section Frame

variable {S : Set Path} {w₀ : World ν} {p : Path}

/-- A random value is the next one, and the only thing that is drawn. -/
theorem Meets.random {E : World ν → Prop} {Q : α → World ν → Prop} {f : Nat → Fx ν α}
    (h : Meets m (World.Frame S { w₀ with rng := w₀.rng + 1 }) (f w₀.rng) Q E) :
    Meets m (w₀.Frame S) (Fx.random >>= f) Q E := by
  intro w hw
  rw [bind_run_ok (random_run m w), hw.rng]
  exact h _ ⟨hw.fs, rfl, hw.ticks⟩

/-- Looking for a file is an attempt and no change. -/
theorem Meets.pathExists {p : Path} :
    Meets m (w₀.Frame S) (Fx.pathExists p) (fun _ => w₀.Frame S) (w₀.Frame S) := by
  refine (Meets.check fun _ hw => hw.tick _).attempt.bind fun r => ?_
  cases r with
  | ok b => exact Meets.pure fun _ hw => hw
  | error e => exact Meets.pure fun _ hw => hw

/-- A file outside the frame reads as it did at the start. -/
theorem Meets.read (hp : p ∉ S) :
    Meets m (w₀.Frame S) (Fx.read p) (fun c w => w₀.Frame S w ∧ w₀.fs p = some c)
      (w₀.Frame S) := by
  refine Meets.step (fun w _ hw => hw.tick _) fun w hw => ?_
  have hfs : (w.tick (.read p)).fs p = w₀.fs p := hw.fs p hp
  dsimp only
  rw [hfs]
  cases h : w₀.fs p with
  | none => exact hw.tick _
  | some c => exact ⟨hw.tick _, rfl⟩

/-- Removing a file of the frame, whether it is there or not. -/
theorem Meets.remove (hp : p ∈ S) :
    Meets m (w₀.Frame S) (Fx.remove p) (fun _ => w₀.Frame S) (w₀.Frame S) := by
  refine Meets.step (fun w _ hw => hw.tick _) fun w hw => ?_
  cases (w.tick (.remove p)).fs p with
  | none => exact hw.tick _
  | some c => exact (hw.tick _).erase hp

variable [Torn ν]

/-- Creating a file of the frame; one that is there already is left alone. -/
theorem Meets.createNew (hp : p ∈ S) :
    Meets m (w₀.Frame S) (Fx.createNew p) (fun _ => w₀.Frame S) (w₀.Frame S) := by
  refine Meets.step (fun w _ hw => hw.tick _) fun w hw => ?_
  cases (w.tick (.createNew p)).fs p with
  | none => exact (hw.tick _).put hp _
  | some c => exact hw.tick _

theorem Meets.truncate (hp : p ∈ S) :
    Meets m (w₀.Frame S) (Fx.truncate p) (fun _ => w₀.Frame S) (w₀.Frame S) :=
  Meets.step (fun _ _ hw => hw.tick _) fun _ hw => (hw.tick _).put hp _

/-- Filling a file of the frame: it holds `c` only where the operation was done. -/
theorem Meets.fill (hp : p ∈ S) (c : ν) :
    Meets m (w₀.Frame S) (Fx.fill p c) (fun _ w => w₀.Frame S w ∧ w.fs p = some c)
      (w₀.Frame S) :=
  Meets.step (fun _ _ hw => (hw.tick _).put hp _)
    fun _ hw => ⟨(hw.tick _).put hp _, by simp⟩

end Frame

/-! ## Rules for what a file may hold -/

/-- Whenever the file at `p` satisfies `K` before the program, it does after
it, however the program ends; a value it ends with satisfies `A`. -/
def Keeps (m : Machine) (p : Path) (K : Option ν → Prop) (x : Fx ν α) (A : α → Prop) : Prop :=
  Meets m (fun w => K (w.fs p)) x (fun a w => A a ∧ K (w.fs p)) (fun w => K (w.fs p))

/-- An absent or incomplete file satisfies `K`. -/
structure Loose [Torn ν] (K : Option ν → Prop) : Prop where
  absent : K none
  torn : ∀ s, K (some (Torn.torn s))

namespace Keeps

variable {p q : Path} {K : Option ν → Prop} {A : α → Prop} {B : β → Prop}

/-- A value that satisfies `A` is an end. -/
theorem pure {a : α} (h : A a) : Keeps m p K (Pure.pure a) A :=
  fun _ hw => ⟨h, hw⟩

/-- A pure computation, whose value `h` speaks of. -/
theorem ofResult {r : Result α} (h : ∀ a, r = .ok a → A a) : Keeps m p K (Fx.ofResult r) A := by
  intro w hw
  cases r with
  | ok a => exact ⟨h a rfl, hw⟩
  | error e => exact hw

/-- Two programs in a row. A proof about a longer program is a chain of this
rule, one link for each line of the program. -/
theorem bind {x : Fx ν α} {f : α → Fx ν β} (hx : Keeps m p K x A)
    (hf : ∀ a, A a → Keeps m p K (f a) B) : Keeps m p K (x >>= f) B :=
  Meets.bind hx fun a w hw => hf a hw.1 w hw.2

/-- Less may be said of the value. -/
theorem weaken {A' : α → Prop} {x : Fx ν α} (hx : Keeps m p K x A) (h : ∀ a, A a → A' a) :
    Keeps m p K x A' :=
  Meets.weaken hx (fun _ hw => hw) (fun a _ hw => ⟨h a hw.1, hw.2⟩) fun _ hw => hw

theorem done {x : Fx ν α} (hx : Keeps m p K x A) : Keeps m p K x fun _ => True :=
  hx.weaken fun _ _ => trivial

/-- However the program ends. -/
theorem run {x : Fx ν α} (hx : Keeps m p K x A) {w : World ν} (hw : K (w.fs p)) :
    K ((x.run m w).2.fs p) := by
  have h := hx w hw
  rcases hr : x.run m w with ⟨r, w'⟩
  rw [hr] at h
  cases r with
  | ok a => exact h.2
  | error e => exact h

theorem run_value {x : Fx ν α} (hx : Keeps m p K x A) {w w' : World ν} {a : α} (hw : K (w.fs p))
    (h : x.run m w = (.ok a, w')) : A a ∧ K (w'.fs p) := by
  have hkeep := hx w hw
  rw [h] at hkeep
  exact hkeep

/-- A program that runs under a condition may use it. -/
theorem when {c : Prop} [Decidable c] {x : Fx ν Unit} (hx : c → Keeps m p K x fun _ => True) :
    Keeps m p K (Fx.when c x) fun _ => True := by
  unfold Fx.when
  split
  · rename_i hc
    exact hx hc
  · exact pure trivial

/-- After a guard its condition holds. -/
theorem ensure {c : Prop} [Decidable c] {msg : String} :
    Keeps m p K (Fx.ensure c msg : Fx ν Unit) fun _ => c := by
  refine ofResult fun _ h => ?_
  split at h
  · assumption
  · cases h

/-- What is known of the value is known where there is one. -/
theorem attempt {x : Fx ν α} (hx : Keeps m p K x A) :
    Keeps m p K (Fx.attempt x) fun r => ∀ a, r = .ok a → A a := by
  refine (Meets.attempt hx).weaken (fun _ hw => hw) ?_ fun _ hw => hw
  rintro (e | a) w hw
  · exact ⟨nofun, hw⟩
  · refine ⟨?_, hw.2⟩
    rintro _ ⟨⟩
    exact hw.1

theorem mapErr {f : String → String} {x : Fx ν α} (hx : Keeps m p K x A) :
    Keeps m p K (Fx.mapErr f x) A :=
  Meets.mapErr hx

theorem releasing {x : Fx ν α} (hx : Keeps m p K x A) : Keeps m p K (Fx.releasing q x) A :=
  Meets.releasing hx

theorem unlock : Keeps m p K (Fx.unlock q : Fx ν Unit) fun _ => True :=
  fun _ hw => ⟨trivial, hw⟩

theorem now : Keeps m p K (Fx.now : Fx ν Int) fun _ => True :=
  fun _ hw => ⟨trivial, hw⟩

theorem random : Keeps m p K (Fx.random : Fx ν Nat) fun _ => True :=
  fun _ hw => ⟨trivial, hw⟩

/-- An operation that changes no file. -/
theorem check {op : FileOp} {act : World ν → Result α} :
    Keeps m p K (Fx.check op act) fun _ => True :=
  (Meets.check fun _ hw => hw).weaken (fun _ hw => hw) (fun _ _ hw => ⟨trivial, hw⟩) fun _ hw => hw

theorem pathExists : Keeps m p K (Fx.pathExists q : Fx ν Bool) fun _ => True := by
  refine check.attempt.bind fun r _ => ?_
  cases r with
  | ok b => exact pure trivial
  | error e => exact pure trivial

/-- What is read from the file satisfies `K`. -/
theorem read : Keeps m p K (Fx.read p) fun c => K (some c) := by
  unfold Keeps Fx.read Fx.check
  refine Meets.step (fun w s hw => hw) fun w hw => ?_
  cases h : w.fs p with
  | none => simpa [bail, h] using hw
  | some c => simpa [h] using hw

/-- Writing some file is writing this one or leaving it. -/
theorem of_put {w : World ν} {c : ν} (hw : K (w.fs p)) (hc : K (some c)) :
    K ((w.put q c).fs p) := by
  rw [World.put_fs, Function.update_apply]
  split
  · exact hc
  · exact hw

variable [Torn ν] (hK : Loose K)

include hK

/-- A loose property survives that the file disappears. -/
theorem remove : Keeps m p K (Fx.remove q : Fx ν Unit) fun _ => True := by
  refine Meets.step (fun w s hw => hw) fun w hw => ?_
  cases (w.tick (.remove q)).fs q with
  | none => exact hw
  | some c =>
    refine ⟨trivial, ?_⟩
    rw [World.erase_fs, Function.update_apply]
    split
    · exact hK.absent
    · exact hw

/-- A new file is empty at first, which is loose. -/
theorem createNew : Keeps m p K (Fx.createNew q : Fx ν Unit) fun _ => True := by
  refine Meets.step (fun w s hw => hw) fun w hw => ?_
  cases (w.tick (.createNew q)).fs q with
  | none => exact ⟨trivial, of_put hw (hK.torn [])⟩
  | some c => exact hw

/-- An emptied file is incomplete, which is loose. -/
theorem truncate : Keeps m p K (Fx.truncate q : Fx ν Unit) fun _ => True :=
  Meets.step (fun _ _ hw => hw) fun _ hw => ⟨trivial, of_put hw (hK.torn [])⟩

/-- A file that was only partly filled is loose, and `c` satisfies `K`. -/
theorem fill {c : ν} (hc : K (some c)) : Keeps m p K (Fx.fill q c) fun _ => True :=
  Meets.step (fun _ s hw => of_put hw (hK.torn s)) fun _ hw => ⟨trivial, of_put hw hc⟩

/-- `fs::write` empties the file and fills it. -/
theorem write {c : ν} (hc : K (some c)) : Keeps m p K (Fx.write q c) fun _ => True :=
  (truncate hK).bind fun _ _ => fill hK hc

end Keeps

/-! ## Rules for two runs -/

variable {R : World ν → World ν → Prop}

/-- Related values from related worlds. -/
theorem Related.pure {A : α → β → Prop} {a : α} {b : β} (h : A a b) :
    Related m R (Pure.pure a : Fx ν α) (Pure.pure b) A :=
  fun _ _ hR => ⟨hR, h⟩

/-- Two programs in a row, side by side; where one of the first stops so does
the other. -/
theorem Related.bind {A : α → β → Prop} {B : γ → δ → Prop} {x : Fx ν α} {y : Fx ν β}
    {f : α → Fx ν γ} {g : β → Fx ν δ} (hx : Related m R x y A)
    (hf : ∀ a b, A a b → Related m R (f a) (g b) B) : Related m R (x >>= f) (y >>= g) B := by
  intro w v hR
  obtain ⟨hR', h⟩ := hx w v hR
  rw [bind_run, bind_run]
  rcases hw : x.run m w with ⟨r, w'⟩
  rcases hv : y.run m v with ⟨s, v'⟩
  rw [hw, hv] at hR' h
  cases r with
  | ok a =>
    cases s with
    | ok b => exact hf a b h w' v' hR'
    | error e => exact h.elim
  | error e =>
    cases s with
    | ok b => exact h.elim
    | error e' => exact ⟨hR', h⟩

/-! ## Programs that only read -/

/-- The program answers `r` and leaves the files, the random values and the
clock as they are. -/
def Answers (m : Machine) (x : Fx ν α) (w : World ν) (r : Result α) : Prop :=
  ∃ w', x.run m w = (r, w') ∧ w.Frame ∅ w'

namespace Answers

variable {w : World ν} {a : α} {x : Fx ν α}

theorem pure : Answers m (Pure.pure a : Fx ν α) w (.ok a) :=
  ⟨w, rfl, .refl _ _⟩

theorem ofResult {r : Result α} : Answers m (Fx.ofResult r : Fx ν α) w r :=
  ⟨w, rfl, .refl _ _⟩

theorem bind {f : α → Fx ν β} {r : Result β} (hx : Answers m x w (.ok a))
    (hf : ∀ v, w.Frame ∅ v → Answers m (f a) v r) : Answers m (x >>= f) w r := by
  obtain ⟨v, hv, hwv⟩ := hx
  obtain ⟨u, hu, hvu⟩ := hf v hwv
  exact ⟨u, by rw [bind_run_ok hv, hu], hwv.trans hvu⟩

theorem bind_error {f : α → Fx ν β} {e : Halt} (hx : Answers m x w (.error e)) :
    Answers m (x >>= f) w (.error e) := by
  obtain ⟨v, hv, hwv⟩ := hx
  exact ⟨v, bind_run_error hv, hwv⟩

theorem mapErr {f : String → String} {r : Result α} (hx : Answers m x w r) :
    Answers m (Fx.mapErr f x) w (Files.mapErr f r) := by
  obtain ⟨v, hv, hwv⟩ := hx
  exact ⟨v, by rw [mapErr_run, hv], hwv⟩

theorem attempt (hx : Answers m x w (.ok a)) : Answers m (Fx.attempt x) w (.ok (.ok a)) := by
  obtain ⟨v, hv, hwv⟩ := hx
  exact ⟨v, by rw [attempt_run, hv]; rfl, hwv⟩

theorem attempt_err {msg : String} (hx : Answers m x w (.error (.err msg))) :
    Answers m (Fx.attempt x) w (.ok (.error msg)) := by
  obtain ⟨v, hv, hwv⟩ := hx
  exact ⟨v, by rw [attempt_run, hv]; rfl, hwv⟩

theorem releasing {p : Path} {r : Result α} (hx : Answers m x w r) :
    Answers m (Fx.releasing p x) w r := by
  obtain ⟨v, hv, hwv⟩ := hx
  exact ⟨v, by rw [releasing_run, hv], hwv⟩

theorem when {c : Prop} [Decidable c] {y : Fx ν Unit} (hy : c → Answers m y w (.ok ())) :
    Answers m (Fx.when c y) w (.ok ()) := by
  unfold Fx.when
  split
  · rename_i hc
    exact hy hc
  · exact pure

theorem ensure {c : Prop} [Decidable c] {msg : String} (hc : c) :
    Answers m (Fx.ensure c msg : Fx ν Unit) w (.ok ()) :=
  ⟨w, by simp [Fx.ensure, hc], .refl _ _⟩

theorem ensure_not {c : Prop} [Decidable c] {msg : String} (hc : ¬c) :
    Answers m (Fx.ensure c msg : Fx ν Unit) w (.error (.err msg)) :=
  ⟨w, by simp [Fx.ensure, hc, bail], .refl _ _⟩

theorem check (hm : m.Faultless) (op : FileOp) (act : World ν → Result α) :
    Answers m (Fx.check op act) w (act (w.tick op)) :=
  ⟨_, check_run hm op act w, (World.Frame.refl ∅ w).tick op⟩

theorem pathExists (hm : m.Faultless) (p : Path) :
    Answers m (Fx.pathExists p : Fx ν Bool) w (.ok (w.fs p).isSome) :=
  ⟨_, pathExists_run hm p w, (World.Frame.refl ∅ w).tick _⟩

theorem read (hm : m.Faultless) {p : Path} {c : ν} (h : w.fs p = some c) :
    Answers m (Fx.read p) w (.ok c) :=
  ⟨_, read_run hm h, (World.Frame.refl ∅ w).tick _⟩

theorem read_missing (hm : m.Faultless) {p : Path} (h : w.fs p = none) :
    Answers m (Fx.read p) w (.error (.err "No such file or directory")) :=
  ⟨_, by rw [Fx.read, check_run hm]; simp [h, bail], (World.Frame.refl ∅ w).tick (.read p)⟩

end Answers

/-! ## Programs that read the clock and nothing else -/

/-- At these readings of the clock the program ends with a value, and does
nothing else. -/
def Timed (times : List Int) (x : Fx ν α) (a : α) : Prop :=
  ∀ (m : Machine) (w : World ν), (∀ i t, times[i]? = some t → m.clock (w.ticks + i) = t) →
    x.run m w = (.ok a, { w with ticks := w.ticks + times.length })

namespace Timed

variable {times times' : List Int} {a : α} {b : β}

theorem pure : Timed [] (Pure.pure a : Fx ν α) a :=
  fun _ _ _ => rfl

theorem now (t : Int) : Timed [t] (Fx.now : Fx ν Int) t := by
  intro m w h
  have ht : m.clock w.ticks = t := h 0 t rfl
  rw [now_run, ht]
  rfl

theorem ofResult {r : Result α} (h : r = .ok a) : Timed [] (Fx.ofResult r : Fx ν α) a := by
  intro m w _
  rw [h]
  rfl

theorem bind {x : Fx ν α} {f : α → Fx ν β} (hx : Timed times x a) (hf : Timed times' (f a) b) :
    Timed (times ++ times') (x >>= f) b := by
  intro m w h
  have hfirst : ∀ i t, times[i]? = some t → m.clock (w.ticks + i) = t := by
    intro i t ht
    refine h i t ?_
    rw [List.getElem?_append_left (List.getElem?_eq_some_iff.mp ht).1, ht]
  have hrest : ∀ i t, times'[i]? = some t → m.clock (w.ticks + times.length + i) = t := by
    intro i t ht
    rw [Nat.add_assoc]
    refine h _ t ?_
    rw [List.getElem?_append_right (by omega), Nat.add_sub_cancel_left, ht]
  rw [bind_run_ok (hx m w hfirst), hf m _ hrest, List.length_append, Nat.add_assoc]

end Timed

end Fx

/-- A machine without faults with given readings of its clock. -/
def Machine.at (ticks : Nat) (times : List Int) : Machine :=
  { Machine.quiet with clock n := times.getD (n - ticks) 0 }

theorem Machine.at_faultless (ticks : Nat) (times : List Int) :
    (Machine.at ticks times).Faultless :=
  fun _ _ => rfl

theorem Machine.at_clock {ticks i : Nat} {times : List Int} {t : Int} (h : times[i]? = some t) :
    (Machine.at ticks times).clock (ticks + i) = t := by
  simp [Machine.at, h]

end HearthVault.Files
