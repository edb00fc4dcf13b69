/-
HearthVault.Lib.Processes — programs that run side by side.

Processes share the files, the random values and the advisory locks.
`Fx.next` is one call of one process, and a run is any interleaving of such
calls. A process that meets a lock of another one waits, which is no step at
all, or gives up with an error. `Shared.log` is the history of one watched
file: who wrote it, over which contents.

`Fx.Safe` reasons about one process among others. A process has a `view`, the
part of the shared state that no other process changes; what a program does is
said of the view, and what its steps do to the state is said by a guarantee
`G`, from which it is shown that the views of the others stay as they are.

`Safe` is inductive on what is left of the program, and not on a run, so the
other processes need not appear in it: between two steps of the process its
view is the same. The rules for `bind` and `mapEnd` are inductions on it, and
`Fx.Among` packs them into pre- and postconditions with one rule for each call.
-/
import HearthVault.Lib.FileRules

namespace HearthVault.Files

/-! ## Shared state -/

/-- One write of the watched file. -/
structure Commit (ν : Type) where
  who : Nat
  before : Option ν
  after : Option ν
  deriving DecidableEq

/-- What processes share; the holder of a lock is named by its process id. -/
structure Shared (ν : Type) where
  world : World ν
  owner : Path → Option Nat
  log : List (Commit ν)

variable {ν : Type}

/-- What a process has written to the watched file. -/
def Shared.commits (s : Shared ν) (who : Nat) : List (Commit ν) :=
  s.log.filter fun c => c.who = who

/-- A lock is given back, or all of them when its process ends. -/
def Shared.released (s : Shared ν) (q : Path) (who : Nat) : Shared ν :=
  { s with owner := if s.owner q = some who then Function.update s.owner q none else s.owner }

def Shared.ended (s : Shared ν) (who : Nat) : Shared ν :=
  { s with owner := fun q => if s.owner q = some who then none else s.owner q }

def Shared.locked (s : Shared ν) (q : Path) (who : Nat) (w : World ν) : Shared ν :=
  { s with world := w, owner := Function.update s.owner q (some who) }

/-- A step has been taken, and is logged if it wrote the watched file. -/
def Shared.did [DecidableEq ν] {β : Type} (s : Shared ν) (p : Path) (who : Nat) (op : FileOp)
    (r : Result β × World ν) : Shared ν :=
  { s with
    world := r.2
    log :=
      if (op.writes p ∧ r.1.isOk) ∨ r.2.fs p ≠ s.world.fs p then
        s.log ++ [⟨who, s.world.fs p, r.2.fs p⟩]
      else s.log }

section

variable [DecidableEq ν] {α β : Type}

/-- The next call of a process. -/
def Fx.next (p : Path) (m : Machine) : Fx ν α → Shared ν → Option (Fx ν α × Shared ν)
  | .done _, _ => none
  | .query q k, s =>
    some (k (q.answer m s.world).1, { s with world := (q.answer m s.world).2 })
  | .release q k, s => some (k, s.released q m.pid)
  | .file (.lock q) _ act k, s =>
    if s.owner q = none then
      some (k (act (s.world.tick (.lock q))).1,
        s.locked q m.pid (act (s.world.tick (.lock q))).2)
    else some (k (bail "timed out waiting for the vault lock"), s)
  | .file op _ act k, s =>
    some (k (act (s.world.tick op)).1, s.did p m.pid op (act (s.world.tick op)))

variable {p : Path} {m : Machine}

/-- A call of `x` is the next call of `x >>= f`. -/
theorem Fx.next_bind {x x' : Fx ν α} {s s' : Shared ν} (h : x.next p m s = some (x', s'))
    (f : α → Fx ν β) : (x.bind f).next p m s = some (x'.bind f, s') := by
  cases x with
  | done r => cases h
  | query q k => cases h; rfl
  | release q k => cases h; rfl
  | file op torn act k =>
    -- a lock is given or refused, all other operations are done
    cases op with
    | lock q =>
      simp only [Fx.next, Fx.bind] at h ⊢
      split at h <;> rename_i hfree <;> simp only [Option.some.injEq, Prod.mk.injEq] at h <;>
        obtain ⟨rfl, rfl⟩ := h <;> simp [hfree]
    | _ => cases h; rfl

/-- A call of `x` is the next call where only its end is changed. -/
theorem Fx.next_mapEnd {x x' : Fx ν α} {s s' : Shared ν} (h : x.next p m s = some (x', s'))
    (f : Result α → Fx ν β) : (x.mapEnd f).next p m s = some (x'.mapEnd f, s') := by
  cases x with
  | done r => cases h
  | query q k => cases h; rfl
  | release q k => cases h; rfl
  | file op torn act k =>
    cases op with
    | lock q =>
      simp only [Fx.next, Fx.mapEnd] at h ⊢
      split at h <;> rename_i hfree <;> simp only [Option.some.injEq, Prod.mk.injEq] at h <;>
        obtain ⟨rfl, rfl⟩ := h <;> simp [hfree]
    | _ => cases h; rfl

end

/-! ## One process among others -/

/-- From a state of which the process sees `v`, its program only takes steps
that `G` allows, whatever the others do, and ends with what `post` says. -/
inductive Fx.Safe [DecidableEq ν] {α V : Type} (p : Path) (m : Machine) (view : Shared ν → V)
    (G : Shared ν → Shared ν → Prop) (post : Result α → V → Prop) : Fx ν α → V → Prop
  | done {r : Result α} {v : V} (h : post r v) : Safe p m view G post (.done r) v
  | step {x : Fx ν α} {v : V} (hx : ∀ r, x ≠ .done r)
      (hG : ∀ s x' s', view s = v → x.next p m s = some (x', s') → G s s')
      (h : ∀ s x' s', view s = v → x.next p m s = some (x', s') →
        Safe p m view G post x' (view s')) : Safe p m view G post x v

namespace Fx

variable [DecidableEq ν] {α β V : Type} {p : Path} {m : Machine} {view : Shared ν → V}
  {G : Shared ν → Shared ν → Prop}

/-- Every program but an ended one makes a call. -/
theorem next_isSome {x : Fx ν α} (hx : ∀ r, x ≠ .done r) (s : Shared ν) :
    ∃ x' s', x.next p m s = some (x', s') := by
  cases x with
  | done r => exact absurd rfl (hx r)
  | query q k => exact ⟨_, _, rfl⟩
  | release q k => exact ⟨_, _, rfl⟩
  | file op torn act k =>
    cases op with
    | lock q =>
      simp only [next]
      split <;> exact ⟨_, _, rfl⟩
    | _ => exact ⟨_, _, rfl⟩

/-- More may be known at the end than is needed. -/
theorem Safe.weaken {post post' : Result α → V → Prop} {x : Fx ν α} {v : V}
    (h : Safe p m view G post x v) (himp : ∀ r v, post r v → post' r v) :
    Safe p m view G post' x v := by
  induction h with
  | done h => exact .done (himp _ _ h)
  | step hx hG _ ih => exact .step hx hG ih

/-- A program that has ended satisfies what is said of ends. -/
theorem Safe.ended {post : Result α → V → Prop} {r : Result α} {v : V}
    (h : Safe p m view G post (.done r) v) : post r v := by
  cases h with
  | done h => exact h
  | step hx => exact absurd rfl (hx r)

/-- One step of a safe program: the guarantee allows it, and what is left of the
program is safe. -/
theorem Safe.next {post : Result α → V → Prop} {x x' : Fx ν α} {s s' : Shared ν}
    (h : Safe p m view G post x (view s)) (hnext : x.next p m s = some (x', s')) :
    G s s' ∧ Safe p m view G post x' (view s') := by
  cases h with
  | done => cases hnext
  | step _ hG h => exact ⟨hG s x' s' rfl hnext, h s x' s' rfl hnext⟩

/-- A program is safe that is safe up to its middle, with safety of the rest as
what is known there. -/
theorem Safe.bind {post : Result β → V → Prop} {x : Fx ν α} {f : α → Fx ν β} {v : V}
    (h : Safe p m view G (fun r v => match r with
      | .ok a => Safe p m view G post (f a) v
      | .error e => post (.error e) v) x v) : Safe p m view G post (x >>= f) v := by
  rw [bind_eq]
  induction h with
  | @done r v h =>
    cases r with
    | ok a => exact h
    | error e => exact .done h
  | @step x v hx hG _ ih =>
    -- the calls of `x >>= f` before the middle are those of `x`
    have hbind : ∀ s y s', (x.bind f).next p m s = some (y, s') →
        ∃ x', x.next p m s = some (x', s') ∧ y = x'.bind f := by
      intro s y s' hy
      obtain ⟨x', t, hnext⟩ := next_isSome (p := p) (m := m) hx s
      rw [next_bind hnext] at hy
      cases hy
      exact ⟨x', hnext, rfl⟩
    refine .step (fun r hr => ?_) (fun s y s' hs hy => ?_) fun s y s' hs hy => ?_
    · cases x with
      | done r => exact hx r rfl
      | _ => cases hr
    · obtain ⟨x', hnext, -⟩ := hbind s y s' hy
      exact hG s x' s' hs hnext
    · obtain ⟨x', hnext, rfl⟩ := hbind s y s' hy
      exact ih s x' s' hs hnext

/-- The same for a program whose end is changed. -/
theorem Safe.mapEnd {post : Result β → V → Prop} {x : Fx ν α} {f : Result α → Fx ν β} {v : V}
    (h : Safe p m view G (fun r v => Safe p m view G post (f r) v) x v) :
    Safe p m view G post (x.mapEnd f) v := by
  induction h with
  | @done r v h => exact h
  | @step x v hx hG _ ih =>
    have hmapEnd : ∀ s y s', (x.mapEnd f).next p m s = some (y, s') →
        ∃ x', x.next p m s = some (x', s') ∧ y = x'.mapEnd f := by
      intro s y s' hy
      obtain ⟨x', t, hnext⟩ := next_isSome (p := p) (m := m) hx s
      rw [next_mapEnd hnext] at hy
      cases hy
      exact ⟨x', hnext, rfl⟩
    refine .step (fun r hr => ?_) (fun s y s' hs hy => ?_) fun s y s' hs hy => ?_
    · cases x with
      | done r => exact hx r rfl
      | _ => cases hr
    · obtain ⟨x', hnext, -⟩ := hmapEnd s y s' hy
      exact hG s x' s' hs hnext
    · obtain ⟨x', hnext, rfl⟩ := hmapEnd s y s' hy
      exact ih s x' s' hs hnext

/-- From every view that satisfies `P` the program is safe, and ends with a
value and a view that satisfy `Q`, or with an error and a view that satisfies
`E`. -/
def Among (p : Path) (m : Machine) (view : Shared ν → V) (G : Shared ν → Shared ν → Prop)
    (P : V → Prop) (x : Fx ν α) (Q : α → V → Prop) (E : V → Prop) : Prop :=
  ∀ v, P v → Safe p m view G (fun r v => match r with
    | .ok a => Q a v
    | .error _ => E v) x v

namespace Among

variable {P : V → Prop} {Q : α → V → Prop} {E : V → Prop}

theorem pure {a : α} (h : ∀ v, P v → Q a v) : Among p m view G P (Pure.pure a) Q E :=
  fun v hv => .done (h v hv)

theorem ofResult {r : Result α} (h : ∀ v, P v → match r with | .ok a => Q a v | .error _ => E v) :
    Among p m view G P (Fx.ofResult r) Q E :=
  fun v hv => .done (h v hv)

theorem bind {R : β → V → Prop} {x : Fx ν α} {f : α → Fx ν β}
    (hx : Among p m view G P x Q E) (hf : ∀ a, Among p m view G (Q a) (f a) R E) :
    Among p m view G P (x >>= f) R E := by
  intro v hv
  refine Safe.bind ((hx v hv).weaken fun r v hr => ?_)
  cases r with
  | ok a => exact hf a v hr
  | error e => exact hr

theorem weaken {P' : V → Prop} {Q' : α → V → Prop} {E' : V → Prop} {x : Fx ν α}
    (hx : Among p m view G P x Q E) (hP : ∀ v, P' v → P v) (hQ : ∀ a v, Q a v → Q' a v)
    (hE : ∀ v, E v → E' v) : Among p m view G P' x Q' E' := by
  intro v hv
  refine (hx v (hP v hv)).weaken fun r v hr => ?_
  cases r with
  | ok a => exact hQ a v hr
  | error e => exact hE v hr

/-- What is known of a value before a program. -/
theorem fact {φ : Prop} {x : Fx ν α} (h : φ → Among p m view G P x Q E) :
    Among p m view G (fun v => P v ∧ φ) x Q E :=
  fun v hv => h hv.2 v hv.1

theorem of_exists {γ : Type} {P : γ → V → Prop} {x : Fx ν α}
    (h : ∀ c, Among p m view G (P c) x Q E) : Among p m view G (fun v => ∃ c, P c v) x Q E :=
  fun v ⟨c, hv⟩ => h c v hv

/-- A caught error is a value, in a view that satisfies `E`. -/
theorem attempt {x : Fx ν α} (hx : Among p m view G P x Q E) :
    Among p m view G P (Fx.attempt x) (fun r v => match r with | .ok a => Q a v | .error _ => E v)
      E := by
  intro v hv
  refine Safe.mapEnd ((hx v hv).weaken fun r v hr => .done ?_)
  rcases r with (_ | _ | _) | a <;> exact hr

theorem mapErr {f : String → String} {x : Fx ν α} (hx : Among p m view G P x Q E) :
    Among p m view G P (Fx.mapErr f x) Q E := by
  intro v hv
  refine Safe.mapEnd ((hx v hv).weaken fun r v hr => .done ?_)
  rcases r with (_ | _ | _) | a <;> exact hr

theorem when {c : Prop} [Decidable c] {x : Fx ν Unit} {Q : Unit → V → Prop}
    (hx : c → Among p m view G P x Q E) (hQ : ¬c → ∀ v, P v → Q () v) :
    Among p m view G P (Fx.when c x) Q E := by
  unfold Fx.when
  split
  · rename_i hc
    exact hx hc
  · rename_i hc
    exact pure (hQ hc)

theorem ensure {c : Prop} [Decidable c] {msg : String} {Q : Unit → V → Prop}
    (hQ : ∀ v, P v → c → Q () v) (hE : ∀ v, P v → E v) :
    Among p m view G P (Fx.ensure c msg) Q E := by
  refine ofResult fun v hv => ?_
  split
  · rename_i h
    split at h
    · exact hQ v hv ‹c›
    · cases h
  · exact hE v hv

/-- A question changes the world at most by its answer. -/
theorem query {q : Query α} (h : ∀ s, P (view s) →
    G s { s with world := (q.answer m s.world).2 } ∧
      Q (q.answer m s.world).1 (view { s with world := (q.answer m s.world).2 })) :
    Among p m view G P (Fx.query q Pure.pure) Q E := by
  intro v hv
  refine .step nofun (fun s x' s' hs hnext => ?_) fun s x' s' hs hnext => ?_ <;> cases hnext <;>
    subst hs
  · exact (h s hv).1
  · exact .done (h s hv).2

/-- Giving a lock back may change the view of this process. -/
theorem unlock {q : Path} {Q : Unit → V → Prop}
    (h : ∀ s, P (view s) → G s (s.released q m.pid) ∧ Q () (view (s.released q m.pid))) :
    Among p m view G P (Fx.unlock q) Q E := by
  intro v hv
  refine .step nofun (fun s x' s' hs hnext => ?_) fun s x' s' hs hnext => ?_ <;> cases hnext <;>
    subst hs
  · exact (h s hv).1
  · exact .done (h s hv).2

/-- A program that gives a lock back at its end, however it ends. -/
theorem releasing {q : Path} {Q' : α → V → Prop} {E' : V → Prop} {x : Fx ν α}
    (hx : Among p m view G P x Q' E')
    (hQ : ∀ s a, Q' a (view s) → G s (s.released q m.pid) ∧ Q a (view (s.released q m.pid)))
    (hE : ∀ s, E' (view s) → G s (s.released q m.pid) ∧ E (view (s.released q m.pid))) :
    Among p m view G P (Fx.releasing q x) Q E := by
  intro v hv
  refine Safe.mapEnd ((hx v hv).weaken fun r v hr => ?_)
  refine .step nofun (fun s x' s' hs hnext => ?_) fun s x' s' hs hnext => ?_ <;> cases hnext <;>
    subst hs <;> cases r with
  | ok a => first | exact (hQ s a hr).1 | exact .done (hQ s a hr).2
  | error e => first | exact (hE s hr).1 | exact .done (hE s hr).2

/-- An operation other than a lock, with both of its answers. -/
theorem step {op : FileOp} (hop : ∀ q, op ≠ .lock q) {torn : Str → World ν → World ν}
    {act : World ν → Result α × World ν}
    (h : ∀ s, P (view s) → G s (s.did p m.pid op (act (s.world.tick op))) ∧
      match (act (s.world.tick op)).1 with
      | .ok a => Q a (view (s.did p m.pid op (act (s.world.tick op))))
      | .error _ => E (view (s.did p m.pid op (act (s.world.tick op))))) :
    Among p m view G P (Fx.step op torn act) Q E := by
  have hnext : ∀ s, (Fx.step op torn act).next p m s =
      some (.done (act (s.world.tick op)).1, s.did p m.pid op (act (s.world.tick op))) := by
    intro s
    cases op with
    | lock q => exact absurd rfl (hop q)
    | _ => rfl
  intro v hv
  refine .step nofun (fun s x' s' hs hstep => ?_) fun s x' s' hs hstep => ?_ <;>
    rw [hnext] at hstep <;> cases hstep <;> subst hs
  · exact (h s hv).1
  · refine .done ?_
    have := (h s hv).2
    cases hr : (act (s.world.tick op)).1 <;> rw [hr] at this <;> exact this

theorem lock {q : Path} {Q : Unit → V → Prop}
    (hfree : ∀ s, P (view s) → s.owner q = none →
      G s (s.locked q m.pid (s.world.tick (.lock q))) ∧
        Q () (view (s.locked q m.pid (s.world.tick (.lock q)))))
    (hbusy : ∀ s, P (view s) → G s s ∧ E (view s)) :
    Among p m view G P (Fx.lock q) Q E := by
  intro v hv
  refine .step nofun (fun s x' s' hs hstep => ?_) fun s x' s' hs hstep => ?_ <;> subst hs <;>
    simp only [Fx.lock, Fx.check, Fx.step, next] at hstep <;> split at hstep <;> cases hstep
  · exact (hfree s hv ‹_›).1
  · exact (hbusy s hv).1
  · exact .done (hfree s hv ‹_›).2
  · exact .done (hbusy s hv).2

end Among

end Fx

end HearthVault.Files
