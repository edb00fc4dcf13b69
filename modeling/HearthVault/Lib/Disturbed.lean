/-
HearthVault.Lib.Disturbed — one program at work while others change the files.

`Fx.runAmid` is `Fx.run` with the other processes let in before every file
operation: `others` says what they have made of the world since the last one,
and may look at everything that has happened so far. A `Scene` keeps, besides
the world, the locks that the program holds and the operations it has done,
each with the files before and after it.

`Fx.Amid` is the rule of pre- and postconditions for such runs.
-/
import HearthVault.Lib.Footprint

namespace HearthVault.Files

/-! ## Scenes -/

/-- One operation of the program, and the files before and after it. -/
structure Event (ν : Type) where
  op : FileOp
  ok : Bool
  before : Path → Option ν
  after : Path → Option ν

/-- The program has written the file at `p`, or changed it. -/
def Event.Touches {ν : Type} (p : Path) (e : Event ν) : Prop :=
  (e.op.writes p = true ∧ e.ok = true) ∨ e.after p ≠ e.before p

/-- The last operation comes first in the trace. -/
structure Scene (ν : Type) where
  world : World ν
  held : Path → Bool
  trace : List (Event ν)

variable {ν α β : Type}

/-- Nothing has been done yet. -/
def Scene.start (w : World ν) : Scene ν :=
  ⟨w, fun _ => false, []⟩

/-- The program has made an operation on the files `w` and left `w'`. -/
def Scene.did (s : Scene ν) (op : FileOp) (w : World ν) (ok : Bool) (w' : World ν) : Scene ν where
  world := w'
  held :=
    match op with
    | .lock q => if ok then Function.update s.held q true else s.held
    | _ => s.held
  trace := ⟨op, ok, w.fs, w'.fs⟩ :: s.trace

/-- No operation so far has touched the file. -/
def Scene.Spared (p : Path) (s : Scene ν) : Prop :=
  ∀ e ∈ s.trace, ¬e.Touches p

theorem Scene.Spared.did {p : Path} {s : Scene ν} (h : s.Spared p) {op : FileOp} {w w' : World ν}
    {ok : Bool} (hop : op.writes p = true → ok = true → False) (hp : w'.fs p = w.fs p) :
    (s.did op w ok w').Spared p := by
  intro e he
  obtain rfl | he := List.mem_cons.mp he
  · simpa [Event.Touches, hp] using hop
  · exact h e he

/-- The files as the program has left them. -/
def leftBy (start : Path → Option ν) : List (Event ν) → Path → Option ν
  | [] => start
  | e :: _ => e.after

/-- A file that was not there has come from elsewhere. -/
def Appeared (start : Path → Option ν) (p : Path) (c : ν) : List (Event ν) → Prop
  | [] => False
  | e :: trace =>
    (leftBy start trace p = none ∧ e.before p = some c) ∨ Appeared start p c trace

/-! ## Runs -/

/-- Run a program while others change the world before each operation. -/
def Fx.runAmid (others : Scene ν → World ν) (m : Machine) :
    Fx ν α → Scene ν → Result α × Scene ν
  | .done r, s => (r, s)
  | .query q k, s =>
    (k (q.answer m s.world).1).runAmid others m { s with world := (q.answer m s.world).2 }
  | .release p k, s => k.runAmid others m { s with held := Function.update s.held p false }
  | .file op torn act k, s =>
    let w := others s
    match m.next w op with
    | none =>
      let (r, w') := act (w.tick op)
      (k r).runAmid others m (s.did op w r.isOk w')
    | some (.fail left) =>
      (k (bail "I/O error")).runAmid others m (s.did op w false (torn left (w.tick op)))
    | some (.kill left) => (.error .killed, s.did op w false (torn left (w.tick op)))

namespace Fx

variable {others : Scene ν → World ν} {m : Machine}

theorem bind_runAmid (x : Fx ν α) (f : α → Fx ν β) (s : Scene ν) :
    (x >>= f).runAmid others m s =
      match x.runAmid others m s with
      | (.ok a, s) => (f a).runAmid others m s
      | (.error h, s) => (.error h, s) := by
  rw [bind_eq]
  induction x generalizing s with
  | done r => cases r <;> rfl
  | query q k ih => exact ih _ _
  | release p k ih => exact ih _
  | file op torn act k ih =>
    simp only [bind, runAmid]
    rcases m.next (others s) op with _ | ⟨left | left⟩
    · exact ih _ _
    · exact ih _ _
    · rfl

/-- The end of a program: a kill comes before any end. -/
theorem mapEnd_runAmid {f : Result α → Fx ν β} (hf : ∀ s, (f (.error .killed)).runAmid others m s =
    (.error .killed, s)) (x : Fx ν α) (s : Scene ν) :
    (x.mapEnd f).runAmid others m s =
      (f (x.runAmid others m s).1).runAmid others m (x.runAmid others m s).2 := by
  induction x generalizing s with
  | done r => rfl
  | query q k ih => exact ih _ _
  | release p k ih => exact ih _
  | file op torn act k ih =>
    simp only [mapEnd, runAmid]
    rcases m.next (others s) op with _ | ⟨left | left⟩
    · exact ih _ _
    · exact ih _ _
    · exact (hf _).symm

/-! ## Rules -/

/-- From a scene that satisfies `P`, the program ends with a value and a scene
that satisfy `Q`, or with a halt and a scene that satisfy `E`. -/
def Amid (others : Scene ν → World ν) (m : Machine) (P : Scene ν → Prop) (x : Fx ν α)
    (Q : α → Scene ν → Prop) (E : Halt → Scene ν → Prop) : Prop :=
  ∀ s, P s → match x.runAmid others m s with
    | (.ok a, s') => Q a s'
    | (.error h, s') => E h s'

namespace Amid

variable {P : Scene ν → Prop} {Q : α → Scene ν → Prop} {E : Halt → Scene ν → Prop}

theorem pure {a : α} (h : ∀ s, P s → Q a s) : Amid others m P (Pure.pure a) Q E :=
  fun s hs => h s hs

theorem ofResult {r : Result α} (h : ∀ s, P s → match r with | .ok a => Q a s | .error e => E e s) :
    Amid others m P (Fx.ofResult r) Q E := by
  intro s hs
  have := h s hs
  cases r with
  | ok a => exact this
  | error e => exact this

theorem bind {R : β → Scene ν → Prop} {x : Fx ν α} {f : α → Fx ν β}
    (hx : Amid others m P x Q E) (hf : ∀ a, Amid others m (Q a) (f a) R E) :
    Amid others m P (x >>= f) R E := by
  intro s hs
  have h := hx s hs
  rw [bind_runAmid]
  rcases hr : x.runAmid others m s with ⟨r, s'⟩
  rw [hr] at h
  cases r with
  | ok a => exact hf a s' h
  | error e => exact h

theorem weaken {P' : Scene ν → Prop} {Q' : α → Scene ν → Prop} {E' : Halt → Scene ν → Prop}
    {x : Fx ν α} (hx : Amid others m P x Q E) (hP : ∀ s, P' s → P s)
    (hQ : ∀ a s, Q a s → Q' a s) (hE : ∀ e s, E e s → E' e s) : Amid others m P' x Q' E' := by
  intro s hs
  have h := hx s (hP s hs)
  rcases hr : x.runAmid others m s with ⟨r, s'⟩
  rw [hr] at h
  cases r with
  | ok a => exact hQ a s' h
  | error e => exact hE e s' h

/-- What is known before a program. -/
theorem fact {φ : Prop} {x : Fx ν α} (h : φ → Amid others m P x Q E) :
    Amid others m (fun s => P s ∧ φ) x Q E :=
  fun s hs => h hs.2 s hs.1

theorem when {c : Prop} [Decidable c] {x : Fx ν Unit} {Q : Unit → Scene ν → Prop}
    (hx : c → Amid others m P x Q E) (hQ : ¬c → ∀ s, P s → Q () s) :
    Amid others m P (Fx.when c x) Q E := by
  unfold Fx.when
  split
  · rename_i hc
    exact hx hc
  · rename_i hc
    exact pure (hQ hc)

theorem ensure {c : Prop} [Decidable c] {msg : String} {Q : Unit → Scene ν → Prop}
    (hQ : ∀ s, P s → c → Q () s) (hE : ∀ s, P s → E (.err msg) s) :
    Amid others m P (Fx.ensure c msg) Q E := by
  refine ofResult fun s hs => ?_
  by_cases hc : c
  · simpa [hc] using hQ s hs hc
  · simpa [hc, bail] using hE s hs

/-- Only an error is caught. -/
theorem attempt {x : Fx ν α} (hx : Amid others m P x Q E) :
    Amid others m P (Fx.attempt x)
      (fun r s => match r with | .ok a => Q a s | .error msg => E (.err msg) s)
      (fun e s => E e s ∧ ∀ msg, e ≠ .err msg) := by
  intro s hs
  have h := hx s hs
  rw [Fx.attempt, mapEnd_runAmid fun _ => rfl]
  rcases hr : x.runAmid others m s with ⟨r, s'⟩
  rw [hr] at h
  rcases r with (_ | _ | _) | a
  · exact h
  · exact ⟨h, nofun⟩
  · exact ⟨h, nofun⟩
  · exact h

/-- The text of an error does not matter to `E`. -/
theorem mapErr {f : String → String} {x : Fx ν α} (hx : Amid others m P x Q E)
    (hE : ∀ msg msg' s, E (.err msg) s → E (.err msg') s) :
    Amid others m P (Fx.mapErr f x) Q E := by
  intro s hs
  have h := hx s hs
  rw [Fx.mapErr, mapEnd_runAmid fun _ => rfl]
  rcases hr : x.runAmid others m s with ⟨r, s'⟩
  rw [hr] at h
  rcases r with (_ | _ | _) | a
  · exact hE _ _ _ h
  · exact h
  · exact h
  · exact h

theorem query {q : Query α} (h : ∀ s, P s →
    Q (q.answer m s.world).1 { s with world := (q.answer m s.world).2 }) :
    Amid others m P (Fx.query q Pure.pure) Q E :=
  fun s hs => h s hs

theorem step {op : FileOp} {torn : Str → World ν → World ν} {act : World ν → Result α × World ν}
    (hact : ∀ s, P s → match act ((others s).tick op) with
      | (.ok a, w') => Q a (s.did op (others s) true w')
      | (.error e, w') => E e (s.did op (others s) false w'))
    (htorn : ∀ s, P s → ∀ left, match m.next (others s) op with
      | none => True
      | some (.fail _) =>
        E (.err "I/O error") (s.did op (others s) false (torn left ((others s).tick op)))
      | some (.kill _) =>
        E .killed (s.did op (others s) false (torn left ((others s).tick op)))) :
    Amid others m P (Fx.step op torn act) Q E := by
  intro s hs
  have hact := hact s hs
  have htorn := htorn s hs
  simp only [Fx.step, runAmid]
  rcases hf : m.next (others s) op with _ | ⟨left | left⟩ <;> simp only [hf] at htorn ⊢
  · rcases hr : act ((others s).tick op) with ⟨r, w'⟩
    rw [hr] at hact
    cases r with
    | ok a => exact hact
    | error e => exact hact
  · exact htorn left
  · exact htorn left

/-- A step after any fault of which `E` holds. -/
theorem effect {op : FileOp} {torn : Str → World ν → World ν}
    {act : World ν → Result α × World ν}
    (hact : ∀ s, P s → match act ((others s).tick op) with
      | (.ok a, w') => Q a (s.did op (others s) true w')
      | (.error e, w') => E e (s.did op (others s) false w'))
    (htorn : ∀ s, P s → ∀ left e,
      E e (s.did op (others s) false (torn left ((others s).tick op)))) :
    Amid others m P (Fx.step op torn act) Q E := by
  refine step hact fun s hs left => ?_
  rcases m.next (others s) op with _ | ⟨_ | _⟩
  · trivial
  · exact htorn s hs left _
  · exact htorn s hs left _

/-- A step that changes no file. -/
theorem check {op : FileOp} {act : World ν → Result α}
    (hact : ∀ s, P s → match act ((others s).tick op) with
      | .ok a => Q a (s.did op (others s) true ((others s).tick op))
      | .error e => E e (s.did op (others s) false ((others s).tick op)))
    (htorn : ∀ s, P s → ∀ e, E e (s.did op (others s) false ((others s).tick op))) :
    Amid others m P (Fx.check op act) Q E := by
  refine effect (fun s hs => ?_) fun s hs _ e => htorn s hs e
  have := hact s hs
  cases hr : act ((others s).tick op) <;> rw [hr] at this <;> exact this

end Amid

/-! ## What the others bring -/

/-- When nobody else is there, a run is a run of the program on its own, and
nothing appears. -/
theorem runAmid_alone (hothers : ∀ s, others s = s.world) (x : Fx ν α) (s : Scene ν) :
    (x.runAmid others m s).1 = (x.run m s.world).1 ∧
      (x.runAmid others m s).2.world = (x.run m s.world).2 := by
  induction x generalizing s with
  | done r => exact ⟨rfl, rfl⟩
  | query q k ih => exact ih _ { s with world := _ }
  | release q k ih => exact ih _
  | file op torn act k ih =>
    simp only [runAmid, run, hothers]
    rcases m.next s.world op with _ | ⟨left | left⟩
    · exact ih _ (s.did op s.world _ _)
    · exact ih _ (s.did op s.world false _)
    · exact ⟨rfl, rfl⟩

theorem Amid.alone (hothers : ∀ s, others s = s.world) (start : Path → Option ν) (x : Fx ν α) :
    Amid others m
      (fun s => leftBy start s.trace = s.world.fs ∧ ∀ p c, ¬Appeared start p c s.trace) x
      (fun _ s => ∀ p c, ¬Appeared start p c s.trace)
      fun _ s => ∀ p c, ¬Appeared start p c s.trace := by
  have hdid : ∀ (s : Scene ν) op ok w', leftBy start s.trace = s.world.fs →
      (∀ p c, ¬Appeared start p c s.trace) →
      ∀ p c, ¬Appeared start p c (s.did op s.world ok w').trace := by
    rintro s op ok w' hleft hnone p c (⟨hnew, hold⟩ | hbefore)
    · rw [hleft] at hnew
      exact absurd (hnew.symm.trans hold) nofun
    · exact hnone p c hbefore
  induction x with
  | done r =>
    intro s hs
    cases r with
    | ok a => exact hs.2
    | error e => exact hs.2
  | query q k ih =>
    refine fun s hs => ih _ _ ⟨hs.1.trans ?_, hs.2⟩
    cases q <;> rfl
  | release q k ih => exact fun s hs => ih _ hs
  | file op torn act k ih =>
    intro s hs
    simp only [runAmid, hothers]
    rcases m.next s.world op with _ | ⟨left | left⟩
    · exact ih _ _ ⟨rfl, hdid s op _ _ hs.1 hs.2⟩
    · exact ih _ _ ⟨rfl, hdid s op _ _ hs.1 hs.2⟩
    · exact hdid s op _ _ hs.1 hs.2

/-! ## Footprints -/

/-- A file outside the footprint has not been touched, whatever the others do. -/
theorem Amid.footprint {S : Set Path} {timed : Bool} {A : α → Prop} {x : Fx ν α}
    (hx : x.Footprint S timed A) {p : Path} (hp : p ∉ S) :
    Amid others m (Scene.Spared p) x (fun _ => Scene.Spared p) fun _ => Scene.Spared p := by
  induction x with
  | done r =>
    intro s hs
    cases r with
    | ok a => exact hs
    | error e => exact hs
  | query q k ih => exact fun s hs => ih _ (hx.2 _) _ hs
  | release q k ih => exact fun s hs => ih hx _ hs
  | file op torn act k ih =>
    obtain ⟨hwithin, hk⟩ := hx
    have hop : op.writes p = true → False := fun h => hp (hwithin.writes p h)
    intro s hs
    simp only [runAmid]
    rcases m.next (others s) op with _ | ⟨left | left⟩
    · exact ih _ (hk _) _ (hs.did (fun h _ => hop h) ((hwithin.act _).fs p hp))
    · exact ih _ (hk _) _ (hs.did (fun h _ => hop h) ((hwithin.torn _ _).fs p hp))
    · exact hs.did (fun h _ => hop h) ((hwithin.torn _ _).fs p hp)

/-- Outside the footprint every file that was there, or has appeared, is there
in the end, when the others only bring new ones. -/
theorem Amid.keepsFound {S : Set Path} {timed : Bool} {A : α → Prop} {x : Fx ν α}
    {start : Path → Option ν} (hx : x.Footprint S timed A)
    (hothers : ∀ (s : Scene ν) p c, s.world.fs p = some c → (others s).fs p = some c) {p : Path}
    (hp : p ∉ S) {c : ν} :
    Amid others m (fun s => leftBy start s.trace = s.world.fs ∧
        (start p = some c ∨ Appeared start p c s.trace → s.world.fs p = some c)) x
      (fun _ s => start p = some c ∨ Appeared start p c s.trace → s.world.fs p = some c)
      fun _ s => start p = some c ∨ Appeared start p c s.trace → s.world.fs p = some c := by
  have hdid : ∀ (s : Scene ν) op ok w', w'.fs p = (others s).fs p →
      (start p = some c ∨ Appeared start p c s.trace → s.world.fs p = some c) →
      start p = some c ∨ Appeared start p c (s.did op (others s) ok w').trace →
        w'.fs p = some c := by
    rintro s op ok w' hkept hs (hstart | ⟨-, hbefore⟩ | hearlier)
    · exact hkept.trans (hothers s p c (hs (.inl hstart)))
    · exact hkept.trans hbefore
    · exact hkept.trans (hothers s p c (hs (.inr hearlier)))
  induction x with
  | done r =>
    intro s hs
    cases r with
    | ok a => exact hs.2
    | error e => exact hs.2
  | query q k ih =>
    refine fun s hs => ih _ (hx.2 _) _ ⟨hs.1.trans ?_, fun h => ?_⟩
    · cases q <;> rfl
    · rw [← hs.2 h]
      cases q <;> rfl
  | release q k ih => exact fun s hs => ih hx _ hs
  | file op torn act k ih =>
    obtain ⟨hwithin, hk⟩ := hx
    intro s hs
    simp only [runAmid]
    rcases m.next (others s) op with _ | ⟨left | left⟩
    · exact ih _ (hk _) _ ⟨rfl, hdid s op _ _ ((hwithin.act _).fs p hp) hs.2⟩
    · exact ih _ (hk _) _ ⟨rfl, hdid s op _ _ ((hwithin.torn _ _).fs p hp) hs.2⟩
    · exact hdid s op _ _ ((hwithin.torn _ _).fs p hp) hs.2

end Fx

end HearthVault.Files
