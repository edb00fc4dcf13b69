/-
HearthVault.Lib.TwoRuns — rules for two runs of a program, side by side.

`World.Alike R` relates two worlds file by file, with the same clock, random
values and faults to come. Programs that make the same calls keep them alike
(`Fx.Related`), and the rules go through such programs call by call, under any
faults. `Fx.Pairs` is for calls after which more or less is known of the files.

Both runs have the same number of attempts at every operation behind them, so
they meet the same fault at the same call; this is the step that every rule
for an operation rests on. Answers are compared by `Concur`: related values or
one and the same stop, so that neither run can end where the other goes on.
-/
import HearthVault.Lib.FileRules

namespace HearthVault.Files

variable {ν α β γ δ : Type}

/-! ## Two answers -/

/-- Related values, or the same stop. -/
def Concur (A : α → β → Prop) : Result α → Result β → Prop
  | .ok a, .ok b => A a b
  | .error h, .error h' => h = h'
  | _, _ => False

/-- Related values, or the same error. -/
inductive Caught (A : α → β → Prop) : Except String α → Except String β → Prop
  | ok {a : α} {b : β} (h : A a b) : Caught A (.ok a) (.ok b)
  | error (e : String) : Caught A (.error e) (.error e)

namespace Concur

variable {A : α → β → Prop} {B : γ → δ → Prop} {r : Result α} {s : Result β}

/-- Two answers that concur are two related values, or one stop. -/
theorem cases (h : Concur A r s) :
    (∃ a b, r = .ok a ∧ s = .ok b ∧ A a b) ∨ ∃ e, r = .error e ∧ s = .error e := by
  cases r with
  | ok a =>
    cases s with
    | ok b => exact .inl ⟨a, b, rfl, rfl, h⟩
    | error e => exact h.elim
  | error e =>
    cases s with
    | ok b => exact h.elim
    | error e' =>
      obtain rfl : e = e' := h
      exact .inr ⟨e, rfl, rfl⟩

/-- An answer concurs with itself. -/
theorem refl {A : α → α → Prop} (h : ∀ a, A a a) (r : Result α) : Concur A r r := by
  cases r with
  | ok a => exact h a
  | error e => exact rfl

/-- Less may be known of two values. -/
theorem mono {A' : α → β → Prop} (h : Concur A r s) (hA : ∀ a b, A a b → A' a b) :
    Concur A' r s := by
  obtain ⟨a, b, rfl, rfl, hab⟩ | ⟨e, rfl, rfl⟩ := h.cases
  · exact hA a b hab
  · exact rfl

theorem eq {r s : Result α} (h : Concur Eq r s) : r = s := by
  obtain ⟨a, b, rfl, rfl, rfl⟩ | ⟨e, rfl, rfl⟩ := h.cases
  · rfl
  · rfl

/-- Two computations in a row, side by side. -/
theorem bind {f : α → Result γ} {g : β → Result δ} (h : Concur A r s)
    (hf : ∀ a b, A a b → Concur B (f a) (g b)) : Concur B (r >>= f) (s >>= g) := by
  obtain ⟨a, b, rfl, rfl, hab⟩ | ⟨e, rfl, rfl⟩ := h.cases
  · exact hf a b hab
  · exact rfl

/-- After the same answer. -/
theorem bind_same {f : α → Result γ} {g : α → Result δ} (r : Result α)
    (hf : ∀ a, Concur B (f a) (g a)) : Concur B (r >>= f) (r >>= g) := by
  cases r with
  | ok a => exact hf a
  | error e => exact rfl

/-- One change of the error text for both. -/
theorem mapErr (h : Concur A r s) (f : String → String) :
    Concur A (Files.mapErr f r) (Files.mapErr f s) := by
  obtain ⟨a, b, rfl, rfl, hab⟩ | ⟨e, rfl, rfl⟩ := h.cases
  · exact hab
  · cases e with
    | err msg => exact rfl
    | panic msg => exact rfl
    | killed => exact rfl

/-- Errors that are caught are the same text; what kills one run kills the
other. -/
theorem caught (h : Concur A r s) : Concur (Caught A) (Files.caught r) (Files.caught s) := by
  obtain ⟨a, b, rfl, rfl, hab⟩ | ⟨e, rfl, rfl⟩ := h.cases
  · exact Caught.ok hab
  · cases e with
    | err msg => exact Caught.error msg
    | panic msg => exact rfl
    | killed => exact rfl

end Concur

/-! ## Two worlds -/

/-- Two worlds whose files are related, with the same clock, random values and
attempts. -/
structure World.Alike (R : Path → Option ν → Option ν → Prop) (w v : World ν) : Prop where
  fs : ∀ q, R q (w.fs q) (v.fs q)
  rng : w.rng = v.rng
  ticks : w.ticks = v.ticks
  attempts : w.attempts = v.attempts

/-- Files are related only if both are there; absent files are, and incomplete
ones with the same beginning. -/
structure Fx.Lax [Torn ν] (R : Path → Option ν → Option ν → Prop) : Prop where
  present : ∀ {q x y}, R q x y → x.isSome = y.isSome
  absent : ∀ q, R q none none
  torn : ∀ q s, R q (some (Torn.torn s)) (some (Torn.torn s))

namespace World.Alike

variable {R : Path → Option ν → Option ν → Prop} {w v : World ν}

/-- Both worlds count the attempt. -/
theorem tick (h : Alike R w v) (op : FileOp) : Alike R (w.tick op) (v.tick op) :=
  ⟨h.fs, h.rng, h.ticks, by rw [World.tick, World.tick, h.attempts]⟩

/-- Related contents, written at one path. -/
theorem put (h : Alike R w v) {p : Path} {c d : ν} (hc : R p (some c) (some d)) :
    Alike R (w.put p c) (v.put p d) := by
  refine ⟨fun q => ?_, h.rng, h.ticks, h.attempts⟩
  by_cases hq : q = p
  · subst hq
    simpa using hc
  · simpa [Function.update_of_ne hq] using h.fs q

/-- A file that is removed from both worlds. -/
theorem erase (h : Alike R w v) {p : Path} (hp : R p none none) :
    Alike R (w.erase p) (v.erase p) := by
  refine ⟨fun q => ?_, h.rng, h.ticks, h.attempts⟩
  by_cases hq : q = p
  · subst hq
    simpa using hp
  · simpa [Function.update_of_ne hq] using h.fs q

/-- The same attempts lie behind, so the same fault comes next. -/
theorem next (h : Alike R w v) (m : Machine) (op : FileOp) : m.next w op = m.next v op := by
  rw [Machine.next, Machine.next, h.attempts]

/-- A weaker relation between the files. -/
theorem mono {S : Path → Option ν → Option ν → Prop} (h : Alike R w v)
    (hRS : ∀ q x y, R q x y → S q x y) : Alike S w v :=
  ⟨fun q => hRS q _ _ (h.fs q), h.rng, h.ticks, h.attempts⟩

/-- The file is absent in both worlds, or there in both. -/
theorem file [Torn ν] (hlax : Fx.Lax R) (h : Alike R w v) (p : Path) :
    w.fs p = none ∧ v.fs p = none ∨
      ∃ c d, w.fs p = some c ∧ v.fs p = some d ∧ R p (some c) (some d) := by
  have hfs := h.fs p
  have hsome := hlax.present hfs
  cases hw : w.fs p with
  | none =>
    cases hv : v.fs p with
    | none => exact .inl ⟨rfl, rfl⟩
    | some d =>
      rw [hw, hv] at hsome
      cases hsome
  | some c =>
    cases hv : v.fs p with
    | none =>
      rw [hw, hv] at hsome
      cases hsome
    | some d =>
      rw [hw, hv] at hfs
      exact .inr ⟨c, d, rfl, rfl, hfs⟩

end World.Alike

namespace Fx

variable {m : Machine} {R : Path → Option ν → Option ν → Prop}

/-! ## Runs that stay alike -/

namespace Related

variable {A : α → β → Prop} {B : γ → δ → Prop} {x : Fx ν α} {y : Fx ν β}

theorem ofResult {r : Result α} {s : Result β} (h : Concur A r s) :
    Related m (World.Alike R) (Fx.ofResult r) (Fx.ofResult s) A :=
  fun _ _ hR => ⟨hR, h⟩

theorem mono {A' : α → β → Prop} (hx : Related m (World.Alike R) x y A)
    (h : ∀ a b, A a b → A' a b) : Related m (World.Alike R) x y A' := by
  intro w v hR
  obtain ⟨hR', hend⟩ := hx w v hR
  exact ⟨hR', Concur.mono hend h⟩

/-- What is known of every value that one of the runs ends with. -/
theorem value {P : α → Prop} (hx : Related m (World.Alike R) x y A)
    (h : ∀ w w' a, x.run m w = (.ok a, w') → P a) :
    Related m (World.Alike R) x y fun a b => A a b ∧ P a := by
  intro w v hR
  obtain ⟨hR', hend⟩ := hx w v hR
  refine ⟨hR', ?_⟩
  obtain ⟨a, b, hw, hv, hab⟩ | ⟨e, hw, hv⟩ := Concur.cases hend
  · rw [hw, hv]
    exact ⟨hab, h w _ a (Prod.ext hw rfl)⟩
  · rw [hw, hv]

theorem attempt (hx : Related m (World.Alike R) x y A) :
    Related m (World.Alike R) (Fx.attempt x) (Fx.attempt y) (Caught A) := by
  intro w v hR
  obtain ⟨hR', hend⟩ := hx w v hR
  rw [attempt_run, attempt_run]
  exact ⟨hR', Concur.caught hend⟩

theorem mapErr {f : String → String} (hx : Related m (World.Alike R) x y A) :
    Related m (World.Alike R) (Fx.mapErr f x) (Fx.mapErr f y) A := by
  intro w v hR
  obtain ⟨hR', hend⟩ := hx w v hR
  rw [mapErr_run, mapErr_run]
  exact ⟨hR', Concur.mapErr hend f⟩

theorem releasing {p : Path} (hx : Related m (World.Alike R) x y A) :
    Related m (World.Alike R) (Fx.releasing p x) (Fx.releasing p y) A := by
  intro w v hR
  rw [releasing_run, releasing_run]
  exact hx w v hR

theorem when {c : Prop} [Decidable c] {x y : Fx ν Unit}
    (hx : c → Related m (World.Alike R) x y fun _ _ => True) :
    Related m (World.Alike R) (Fx.when c x) (Fx.when c y) fun _ _ => True := by
  unfold Fx.when
  split
  · rename_i hc
    exact hx hc
  · exact pure trivial

/-- One condition for both runs. -/
theorem ensure {c : Prop} [Decidable c] {msg : String} :
    Related m (World.Alike R) (Fx.ensure c msg) (Fx.ensure c msg) fun _ _ => c := by
  refine ofResult ?_
  split
  · assumption
  · exact rfl

theorem unlock {p : Path} :
    Related m (World.Alike R) (Fx.unlock p) (Fx.unlock p) fun _ _ => True :=
  fun _ _ hR => ⟨hR, trivial⟩

theorem pid : Related m (World.Alike R) Fx.pid Fx.pid fun i j => i = m.pid ∧ j = m.pid :=
  fun _ _ hR => ⟨hR, rfl, rfl⟩

/-- One reading of the clock. -/
theorem now : Related m (World.Alike R) Fx.now Fx.now Eq := by
  intro w v hR
  refine ⟨⟨hR.fs, hR.rng, congrArg (· + 1) hR.ticks, hR.attempts⟩, ?_⟩
  exact congrArg m.clock hR.ticks

/-- One random value. -/
theorem random : Related m (World.Alike R) Fx.random Fx.random Eq :=
  fun _ _ hR => ⟨⟨hR.fs, congrArg (· + 1) hR.rng, hR.ticks, hR.attempts⟩, hR.rng⟩

/-- Values that are drawn alike are the same. -/
theorem bind_eq {x y : Fx ν α} {f : α → Fx ν γ} {g : α → Fx ν δ}
    (hx : Related m (World.Alike R) x y Eq)
    (hf : ∀ a, Related m (World.Alike R) (f a) (g a) B) :
    Related m (World.Alike R) (x >>= f) (y >>= g) B := by
  refine hx.bind ?_
  rintro a _ rfl
  exact hf a

/-! ## Steps -/

/-- The rule for one operation: both runs do it, fail at it or die in it. -/
theorem step {op : FileOp} {torn torn' : Str → World ν → World ν}
    {act : World ν → Result α × World ν} {act' : World ν → Result β × World ν}
    (ht : ∀ s w v, World.Alike R w v → World.Alike R (torn s w) (torn' s v))
    (ha : ∀ w v, World.Alike R w v →
      World.Alike R (act w).2 (act' v).2 ∧ Concur A (act w).1 (act' v).1) :
    Related m (World.Alike R) (Fx.step op torn act) (Fx.step op torn' act') A := by
  intro w v hR
  rw [step_run_eq, step_run_eq, hR.next m op]
  -- done, failed, killed: one case for both runs
  rcases m.next v op with _ | ⟨s | s⟩
  · exact ha _ _ (hR.tick op)
  · exact ⟨ht s _ _ (hR.tick op), rfl⟩
  · exact ⟨ht s _ _ (hR.tick op), rfl⟩

/-- An operation that changes no file and answers alike. -/
theorem check {op : FileOp} {act : World ν → Result α} {act' : World ν → Result β}
    (h : ∀ w v, World.Alike R w v → Concur A (act w) (act' v)) :
    Related m (World.Alike R) (Fx.check op act) (Fx.check op act') A :=
  step (fun _ _ _ hR => hR) fun w v hR => ⟨hR, h w v hR⟩

section Files

variable [Torn ν] (hlax : Lax R) {p : Path}

include hlax

/-- A step that only asks whether a file is there. -/
theorem present {op : FileOp} {r s : Result α} :
    Related m (World.Alike R) (Fx.check op fun w => if (w.fs p).isSome then r else s)
      (Fx.check op fun w => if (w.fs p).isSome then r else s) Eq := by
  refine check fun w v hR => ?_
  rw [hlax.present (hR.fs p)]
  exact Concur.refl (fun _ => rfl) _

/-- A file is there in both worlds or in neither. -/
theorem pathExists : Related m (World.Alike R) (Fx.pathExists p) (Fx.pathExists p) Eq := by
  have hstat : Related m (World.Alike R)
      (Fx.check (.stat p) fun w => .ok (w.fs p).isSome)
      (Fx.check (.stat p) fun w => .ok (w.fs p).isSome) Eq :=
    check fun w v hR => hlax.present (hR.fs p)
  refine hstat.attempt.bind fun r s hr => ?_
  cases hr with
  | ok h => exact pure h
  | error e => exact pure rfl

/-- What is read is related as the files are. -/
theorem read :
    Related m (World.Alike R) (Fx.read p) (Fx.read p) fun c d => R p (some c) (some d) := by
  refine check fun w v hR => ?_
  obtain ⟨hw, hv⟩ | ⟨c, d, hw, hv, hfs⟩ := hR.file hlax p
  · rw [hw, hv]
    exact rfl
  · rw [hw, hv]
    exact hfs

/-- An absent file is the same error in both runs. -/
theorem remove : Related m (World.Alike R) (Fx.remove p) (Fx.remove p) fun _ _ => True := by
  refine step (fun _ _ _ hR => hR) fun w v hR => ?_
  obtain ⟨hw, hv⟩ | ⟨c, d, hw, hv, -⟩ := hR.file hlax p
  · rw [hw, hv]
    exact ⟨hR, rfl⟩
  · rw [hw, hv]
    exact ⟨hR.erase (hlax.absent p), trivial⟩

/-- So is a file that is there already. -/
theorem createNew :
    Related m (World.Alike R) (Fx.createNew p) (Fx.createNew p) fun _ _ => True := by
  refine step (fun _ _ _ hR => hR) fun w v hR => ?_
  obtain ⟨hw, hv⟩ | ⟨c, d, hw, hv, -⟩ := hR.file hlax p
  · rw [hw, hv]
    exact ⟨hR.put (hlax.torn p []), trivial⟩
  · rw [hw, hv]
    exact ⟨hR, rfl⟩

/-- Emptied files are incomplete, with the same beginning. -/
theorem truncate : Related m (World.Alike R) (Fx.truncate p) (Fx.truncate p) fun _ _ => True :=
  step (fun _ _ _ hR => hR) fun _ _ hR => ⟨hR.put (hlax.torn p []), trivial⟩

/-- Related contents; a partly filled file has one beginning in both worlds. -/
theorem fill {c d : ν} (hc : R p (some c) (some d)) :
    Related m (World.Alike R) (Fx.fill p c) (Fx.fill p d) fun _ _ => True :=
  step (fun s _ _ hR => hR.put (hlax.torn p s)) fun _ _ hR => ⟨hR.put hc, trivial⟩

theorem write {c d : ν} (hc : R p (some c) (some d)) :
    Related m (World.Alike R) (Fx.write p c) (Fx.write p d) fun _ _ => True :=
  (truncate hlax).bind fun _ _ _ => fill hlax hc

end Files

end Related

/-! ## Runs after which more or less is known -/

/-- Two runs have ended with values and worlds that satisfy `Q`, or with the
same stop in worlds that satisfy `E`. -/
def Ended (Q : α → β → World ν → World ν → Prop) (E : World ν → World ν → Prop) :
    Result α × World ν → Result β × World ν → Prop
  | (.ok a, w), (.ok b, v) => Q a b w v
  | (.error h, w), (.error h', v) => h = h' ∧ E w v
  | _, _ => False

/-- Both with values or both stopped. -/
theorem Ended.cases {Q : α → β → World ν → World ν → Prop} {E : World ν → World ν → Prop}
    {x : Result α × World ν} {y : Result β × World ν} (h : Ended Q E x y) :
    (∃ a b w v, x = (.ok a, w) ∧ y = (.ok b, v) ∧ Q a b w v) ∨
      ∃ e w v, x = (.error e, w) ∧ y = (.error e, v) ∧ E w v := by
  obtain ⟨r, w⟩ := x
  obtain ⟨s, v⟩ := y
  cases r with
  | ok a =>
    cases s with
    | ok b => exact .inl ⟨a, b, w, v, rfl, rfl, h⟩
    | error e => exact h.elim
  | error e =>
    cases s with
    | ok b => exact h.elim
    | error e' =>
      obtain ⟨rfl, hE⟩ := h
      exact .inr ⟨e, w, v, rfl, rfl, hE⟩

/-- From worlds that satisfy `P`, two runs end so. -/
def Pairs (m : Machine) (P : World ν → World ν → Prop) (x : Fx ν α) (y : Fx ν β)
    (Q : α → β → World ν → World ν → Prop) (E : World ν → World ν → Prop) : Prop :=
  ∀ w v, P w v → Ended Q E (x.run m w) (y.run m v)

section Pairs

variable {P : World ν → World ν → Prop} {x : Fx ν α} {y : Fx ν β}
  {Q : α → β → World ν → World ν → Prop} {E : World ν → World ν → Prop}

/-- Runs that stay related, as pre- and postconditions. -/
theorem Related.pairs {A : α → β → Prop} (hx : Related m P x y A) :
    Pairs m P x y (fun a b w v => A a b ∧ P w v) P := by
  intro w v hP
  obtain ⟨hP', hend⟩ := hx w v hP
  rcases hw : x.run m w with ⟨r, w'⟩
  rcases hv : y.run m v with ⟨s, v'⟩
  rw [hw, hv] at hP' hend
  obtain ⟨a, b, rfl, rfl, hab⟩ | ⟨e, rfl, rfl⟩ := Concur.cases hend
  · exact ⟨hab, hP'⟩
  · exact ⟨rfl, hP'⟩

/-- Worlds that are related however two runs end. -/
theorem Pairs.related {A : α → β → Prop} (hx : Pairs m P x y (fun a b w v => A a b ∧ P w v) P) :
    Related m P x y A := by
  intro w v hP
  obtain ⟨a, b, w', v', hw, hv, hab, hP'⟩ | ⟨e, w', v', hw, hv, hP'⟩ := (hx w v hP).cases
  · rw [hw, hv]
    exact ⟨hP', hab⟩
  · rw [hw, hv]
    exact ⟨hP', rfl⟩

/-- Two programs in a row; the second begins with what is known at the end of
the first. -/
theorem Pairs.bind {S : γ → δ → World ν → World ν → Prop} {f : α → Fx ν γ} {g : β → Fx ν δ}
    (hx : Pairs m P x y Q E) (hf : ∀ a b, Pairs m (Q a b) (f a) (g b) S E) :
    Pairs m P (x >>= f) (y >>= g) S E := by
  intro w v hP
  rw [bind_run, bind_run]
  obtain ⟨a, b, w', v', hw, hv, hQ⟩ | ⟨e, w', v', hw, hv, hE⟩ := (hx w v hP).cases
  · rw [hw, hv]
    exact hf a b w' v' hQ
  · rw [hw, hv]
    exact ⟨rfl, hE⟩

/-- Consequence, for two runs. -/
theorem Pairs.weaken {P' : World ν → World ν → Prop} {Q' : α → β → World ν → World ν → Prop}
    {E' : World ν → World ν → Prop} (hx : Pairs m P x y Q E) (hP : ∀ w v, P' w v → P w v)
    (hQ : ∀ a b w v, Q a b w v → Q' a b w v) (hE : ∀ w v, E w v → E' w v) :
    Pairs m P' x y Q' E' := by
  intro w v hPw
  obtain ⟨a, b, w', v', hw, hv, hab⟩ | ⟨e, w', v', hw, hv, he⟩ := (hx w v (hP w v hPw)).cases
  · rw [hw, hv]
    exact hQ a b w' v' hab
  · rw [hw, hv]
    exact ⟨rfl, hE w' v' he⟩

theorem Pairs.pure {a : α} {b : β} (h : ∀ w v, P w v → Q a b w v) :
    Pairs m P (Pure.pure a) (Pure.pure b) Q E :=
  h

/-- Two computations that concur. -/
theorem Pairs.ofResult {r : Result α} {s : Result β}
    (h : ∀ w v, P w v → Concur (fun a b => Q a b w v) r s) (hE : ∀ w v, P w v → E w v) :
    Pairs m P (Fx.ofResult r) (Fx.ofResult s) Q E := by
  intro w v hP
  obtain ⟨a, b, rfl, rfl, hab⟩ | ⟨e, rfl, rfl⟩ := (h w v hP).cases
  · exact hab
  · exact ⟨rfl, hE w v hP⟩

/-- What is known of two values before programs that do not change it. -/
theorem Pairs.fact {φ : Prop} (h : φ → Pairs m P x y Q E) :
    Pairs m (fun w v => φ ∧ P w v) x y Q E :=
  fun w v hw => h hw.1 w v hw.2

/-- Programs that go on after the other's success, and after its error. -/
theorem Pairs.attempt_bind {S : γ → δ → World ν → World ν → Prop} {f : Except String α → Fx ν γ}
    {g : Except String β → Fx ν δ} (hx : Pairs m P x y Q E)
    (hok : ∀ a b, Pairs m (Q a b) (f (.ok a)) (g (.ok b)) S E)
    (herror : ∀ e, Pairs m E (f (.error e)) (g (.error e)) S E) :
    Pairs m P (Fx.attempt x >>= f) (Fx.attempt y >>= g) S E := by
  intro w v hP
  rw [bind_run, bind_run, attempt_run, attempt_run]
  obtain ⟨a, b, w', v', hw, hv, hQ⟩ | ⟨e, w', v', hw, hv, hE⟩ := (hx w v hP).cases
  · rw [hw, hv]
    exact hok a b w' v' hQ
  · rw [hw, hv]
    cases e with
    | err msg => exact herror msg w' v' hE
    | panic msg => exact ⟨rfl, hE⟩
    | killed => exact ⟨rfl, hE⟩

/-- One change of the error text. -/
theorem Pairs.mapErr {f : String → String} (hx : Pairs m P x y Q E) :
    Pairs m P (Fx.mapErr f x) (Fx.mapErr f y) Q E := by
  intro w v hP
  rw [mapErr_run, mapErr_run]
  obtain ⟨a, b, w', v', hw, hv, hQ⟩ | ⟨e, w', v', hw, hv, hE⟩ := (hx w v hP).cases
  · rw [hw, hv]
    exact hQ
  · rw [hw, hv]
    cases e with
    | err msg => exact ⟨rfl, hE⟩
    | panic msg => exact ⟨rfl, hE⟩
    | killed => exact ⟨rfl, hE⟩

theorem Pairs.releasing {p : Path} (hx : Pairs m P x y Q E) :
    Pairs m P (Fx.releasing p x) (Fx.releasing p y) Q E := by
  intro w v hP
  rw [releasing_run, releasing_run]
  exact hx w v hP

/-- One operation of each run, where the attempts are the same. -/
theorem Pairs.step {op : FileOp} {torn torn' : Str → World ν → World ν}
    {act : World ν → Result α × World ν} {act' : World ν → Result β × World ν}
    (hP : ∀ w v, P w v → w.attempts = v.attempts)
    (ht : ∀ s w v, P w v → E (torn s (w.tick op)) (torn' s (v.tick op)))
    (ha : ∀ w v, P w v → Ended Q E (act (w.tick op)) (act' (v.tick op))) :
    Pairs m P (Fx.step op torn act) (Fx.step op torn' act') Q E := by
  intro w v hw
  have hnext : m.next w op = m.next v op := by
    rw [Machine.next, Machine.next, hP w v hw]
  rw [step_run_eq, step_run_eq, hnext]
  rcases m.next v op with _ | ⟨s | s⟩
  · exact ha w v hw
  · exact ⟨rfl, ht s w v hw⟩
  · exact ⟨rfl, ht s w v hw⟩

end Pairs

section Held

variable {p : Path} {c d : ν}

/-- Alike, with these contents of one file. -/
structure Holding (R : Path → Option ν → Option ν → Prop) (p : Path) (c d : ν) (w v : World ν) :
    Prop where
  alike : World.Alike R w v
  left : w.fs p = some c
  right : v.fs p = some d

/-- What is read of a file whose contents are known. -/
theorem Pairs.read_held : Pairs m (Holding R p c d) (Fx.read p) (Fx.read p)
    (fun a b w v => (a = c ∧ b = d) ∧ World.Alike R w v) (World.Alike R) := by
  refine Pairs.step (fun _ _ hR => hR.alike.attempts) (fun _ _ _ hR => hR.alike.tick _)
    fun w v hR => ?_
  dsimp only
  rw [World.tick_fs, World.tick_fs, hR.left, hR.right]
  exact ⟨⟨rfl, rfl⟩, hR.alike.tick _⟩

/-- A sync changes nothing. -/
theorem Pairs.sync {q : Path} : Pairs m (Holding R p c d) (Fx.sync q) (Fx.sync q)
    (fun _ _ => Holding R p c d) (World.Alike R) :=
  Pairs.step (fun _ _ hR => hR.alike.attempts) (fun _ _ _ hR => hR.alike.tick _)
    fun _ _ hR => ⟨hR.alike.tick _, hR.left, hR.right⟩

variable [Torn ν] (hlax : Lax R)

include hlax

/-- What is read of a file is held by it. -/
theorem Pairs.read : Pairs m (World.Alike R) (Fx.read p) (Fx.read p) (Holding R p)
    (World.Alike R) := by
  refine Pairs.step (fun _ _ hR => hR.attempts) (fun _ _ _ hR => hR.tick _) fun w v hR => ?_
  obtain ⟨hw, hv⟩ | ⟨c, d, hw, hv, -⟩ := hR.file hlax p
  · dsimp only
    rw [World.tick_fs, World.tick_fs, hw, hv]
    exact ⟨rfl, hR.tick _⟩
  · dsimp only
    rw [World.tick_fs, World.tick_fs, hw, hv]
    exact ⟨hR.tick _, hw, hv⟩

/-- What was filled is held. -/
theorem Pairs.fill (hc : R p (some c) (some d)) :
    Pairs m (World.Alike R) (Fx.fill p c) (Fx.fill p d)
    (fun _ _ => Holding R p c d) (World.Alike R) :=
  Pairs.step (fun _ _ hR => hR.attempts) (fun s _ _ hR => (hR.tick _).put (hlax.torn p s))
    fun _ _ hR => ⟨(hR.tick _).put hc, by simp, by simp⟩

/-- What was held under the old name is under the new one. -/
theorem Pairs.rename {q : Path} (hc : R q (some c) (some d)) :
    Pairs m (Holding R p c d) (Fx.rename p q) (Fx.rename p q) (fun _ _ => World.Alike R)
      (World.Alike R) := by
  refine Pairs.step (fun _ _ hR => hR.alike.attempts) (fun _ _ _ hR => hR.alike.tick _)
    fun w v hR => ?_
  rw [World.tick_fs, World.tick_fs, hR.left, hR.right]
  exact ((hR.alike.tick _).erase (hlax.absent p)).put hc

end Held

end Fx

end HearthVault.Files
