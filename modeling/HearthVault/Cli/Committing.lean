/-
HearthVault.Cli.Committing — saving what was stored, and verifying it.

On a machine without faults a storing command ends in one of few ways
(`Ends`): it fails before it has saved and the entries are what they were, or
it saves its bindings over the entries and then verifies them, which succeeds
exactly when the bindings agree. `Commits` says that a command did get to save
what it had to store.

The commands differ in what they store and not in how they save it, so the
save and the read-back are followed once, in `commit_run`; what is left to a
command is its own reading of the input.
-/
import HearthVault.Cli.Footprints
import HearthVault.Cli.Opening
import HearthVault.Cli.Storing

namespace HearthVault

open Files Symbolic Calendar Bindings

/-! ## Saving and verifying -/

section

variable {m : Machine} {path : Path} {w : Disk}

/-- Verifying compares each value with the one in the file. -/
theorem verifyContents_eq {store : VaultStore} {file : VaultFileV2} {body : VaultBody}
    (hbody : decryptBody store.dataKey file.vault = .ok body) (expected : List (Str × Str)) :
    ∃ msg, store.verifyContents expected (.v2 file) =
      if ∀ p ∈ expected, body.value? p.1 = some p.2 then .ok () else bail msg := by
  set missing := expected.filter fun p => body.value? p.1 ≠ some p.2 with hmissing
  have hnil : missing = [] ↔ ∀ p ∈ expected, body.value? p.1 = some p.2 := by
    simp [hmissing]
  refine ⟨"verification failed: not stored in the vault file: " ++
    String.ofList (Str.join ", ".toList (missing.map Prod.fst)), ?_⟩
  rw [← if_congr hnil rfl rfl]
  simp only [VaultStore.verifyContents, hbody, mapErr, result_ok_bind]
  rfl

/-- And answers without changing anything. -/
theorem verifyPersisted_answers (hm : m.Faultless) {store : VaultStore} {file : VaultFileV2}
    {body : VaultBody} (hfs : w.fs store.path = some (.v2 file))
    (hbody : decryptBody store.dataKey file.vault = .ok body) (expected : List (Str × Str)) :
    ∃ msg, Fx.Answers m (store.verifyPersisted expected) w
      (if ∀ p ∈ expected, body.value? p.1 = some p.2 then .ok () else bail msg) := by
  obtain ⟨msg, hverify⟩ := verifyContents_eq hbody expected
  refine ⟨msg, (readToString_answers hm hfs nofun).mapErr.bind fun v _ => ?_⟩
  rw [hverify]
  exact Fx.Answers.ofResult

/-- The bindings are saved, and verified if they agree. -/
theorem commit_run (hm : m.Faultless) {store store' : VaultStore}
    {items : List (Str × Str × UInt8)} (hcurrent : store.Current path w)
    (hstoring : Storing store items store') :
    ∃ saved w', store'.save.run m w = (.ok saved, w') ∧ Entries (w'.fs path) store'.body ∧
      (∀ q ∉ vaultFiles path, w'.fs q = w.fs q) ∧
      ∃ msg, Fx.Answers m (saved.verifyPersisted (keyValues items)) w'
        (if Agree (keyValues items) then .ok () else bail msg) := by
  have hpath : store'.path = path := hstoring.path.trans hcurrent.place
  obtain ⟨w', hsave, hfs, hothers, -⟩ :=
    VaultStore.save_run hm (hcurrent.unchanged hstoring.others)
  set saved : VaultStore := { store' with loadedFp := some ⟨.v2 (store'.toFile w.rng)⟩ } with hsaved
  have hbody : decryptBody saved.dataKey (store'.toFile w.rng).vault = .ok store'.body :=
    decryptBody_sealed
  obtain ⟨msg, hverify⟩ := @verifyPersisted_answers m w' hm saved _ _ hfs hbody (keyValues items)
  refine ⟨saved, w', hsave, ?_, fun q hq => hothers q ?_, msg, ?_⟩
  · rw [← hpath, hfs]
    exact VaultStore.sealedBody_toFile store' w.rng
  · rw [hpath]
    rintro (rfl | rfl)
    · exact hq (.inl rfl)
    · exact hq (.inr (.inr ⟨m.pid, rfl⟩))
  · have hiff : (∀ p ∈ keyValues items, store'.body.value? p.1 = some p.2) ↔
        Agree (keyValues items) := by
      rw [agree_iff]
      exact forall₂_congr fun p hp => by rw [hstoring.value?_eq_last hp]
    rw [if_congr hiff rfl rfl] at hverify
    exact hverify

end

/-! ## Other files -/

section

variable [JsonText]

theorem Contents.asText_plain (c : Contents) : Plain c.asText := by
  cases c with
  | binary bytes => exact .bail _
  | _ => exact .ok _

variable {m : Machine} {path : Path} {w : Disk} (hm : m.Faultless)

include hm

theorem readText_answers {q : Path} {c : Contents} (h : w.fs q = some c) :
    Fx.Answers m (readText q) w c.asText :=
  (Fx.Answers.read hm h).bind fun _ _ => Fx.Answers.ofResult

/-- A program that reads the file it is given, and goes on with its text. -/
def readSource (file : FileArg) (k : Str → Prog Unit) : Prog Unit := do
  Fx.ensure (← Fx.pathExists file.path) s!"file not found: {String.ofList file.text}"
  let text ← readText file.path
  k text

/-- A source that is there, and is a text, is read. -/
theorem readSource_run {file : FileArg} {c : Contents} {text : Str}
    (hfile : w.fs file.path = some c) (htext : c.asText = .ok text) (k : Str → Prog Unit) :
    ∃ v, w.Frame ∅ v ∧ (readSource file k).run m w = (k text).run m v := by
  obtain ⟨u, hexists, hu⟩ := Fx.Answers.pathExists hm (w := w) file.path
  obtain ⟨v, hread, hv⟩ := readText_answers hm (w := u) (hu.fs file.path (by simp) ▸ hfile)
  rw [hfile, Option.isSome_some] at hexists
  rw [htext] at hread
  refine ⟨v, hu.trans hv, ?_⟩
  rw [readSource, Fx.bind_run_ok hexists, Fx.bind_run_ok (Fx.ensure_run rfl _ m u),
    Fx.bind_run_ok hread]

/-- The source is not there, or it is no text. -/
theorem readSource_unread {file : FileArg}
    (h : ¬∃ c text, w.fs file.path = some c ∧ c.asText = .ok text) (k : Str → Prog Unit) :
    ∃ e, Fx.Answers m (readSource file k) w (.error e) := by
  have hexists : Fx.Answers m (Fx.pathExists file.path) w (.ok (w.fs file.path).isSome) :=
    .pathExists hm file.path
  cases hfile : w.fs file.path with
  | none =>
    rw [hfile] at hexists
    exact ⟨_, hexists.bind fun v _ => (Fx.Answers.ensure_not (by simp)).bind_error⟩
  | some c =>
    rw [hfile] at hexists
    cases htext : c.asText with
    | error e =>
      refine ⟨e, hexists.bind fun v hv => (Fx.Answers.ensure rfl).bind fun u hu => ?_⟩
      have hread := readText_answers hm (w := u) (((hv.trans hu).fs _ (by simp)).trans hfile)
      exact (htext ▸ hread).bind_error
    | ok text => exact absurd ⟨c, text, hfile, htext⟩ h

omit [JsonText] in
theorem write_run (q : Path) (c : Contents) :
    ∃ w', (Fx.write q c : Prog Unit).run m w = (.ok (), w') ∧
    w'.fs = Function.update w.fs q (some c) := by
  refine ⟨_, Fx.write_eq_ok.mpr ⟨hm.next _ _, hm.next _ _, rfl⟩, ?_⟩
  simp

theorem secureDeleteFile_run {q : Path} {c : Contents} (h : w.fs q = some c) :
    ∃ w', (secureDeleteFile q).run m w = (.ok (), w') ∧ w'.fs = Function.update w.fs q none := by
  rcases hrun : (secureDeleteFile q).run m w with ⟨r, w'⟩
  simp [secureDeleteFile, Fx.bind_run, Fx.check_run hm, Fx.step_run hm, Fx.openExisting, Fx.fill,
    Fx.sync, Fx.remove, h] at hrun
  obtain ⟨rfl, rfl⟩ := hrun
  exact ⟨_, rfl, by simp⟩

/-- It changes `.gitignore` at most, and neither creates nor removes it. -/
theorem addToGitignore_run (entry : Str) : ∃ w', (addToGitignore entry).run m w = (.ok (), w') ∧
    (∀ q ≠ gitignore, w'.fs q = w.fs q) ∧ (w'.fs gitignore).isSome = (w.fs gitignore).isSome := by
  have hframe : ∀ {v : Disk}, w.Frame ∅ v → (∀ q ≠ gitignore, v.fs q = w.fs q) ∧
      (v.fs gitignore).isSome = (w.fs gitignore).isSome := by
    intro v hv
    exact ⟨fun q _ => hv.fs q (by simp), by rw [hv.fs gitignore (by simp)]⟩
  obtain ⟨v, hexists, hv⟩ := Fx.Answers.pathExists hm (w := w) gitignore
  rw [addToGitignore, Fx.bind_run_ok hexists]
  cases hfs : w.fs gitignore with
  | none => exact ⟨v, rfl, hfs ▸ hframe hv⟩
  | some c =>
    rw [if_pos (by rfl)]
    have hread : ∃ u, (Fx.attempt (readText gitignore)).run m v = (caught c.asText, u) ∧
        w.Frame ∅ u := by
      obtain ⟨u, hread, hu⟩ := readText_answers hm (hv.fs gitignore (by simp) ▸ hfs)
      exact ⟨u, by rw [Fx.attempt_run, hread], hv.trans hu⟩
    obtain ⟨u, hread, hu⟩ := hread
    cases htext : c.asText with
    | error e =>
      obtain ⟨msg, rfl⟩ := Contents.asText_plain c e htext
      rw [htext] at hread
      rw [Fx.bind_run_ok hread]
      exact ⟨u, rfl, hfs ▸ hframe hu⟩
    | ok contents =>
      rw [htext] at hread
      rw [Fx.bind_run_ok hread]
      dsimp only
      split
      · exact ⟨u, rfl, hfs ▸ hframe hu⟩
      · obtain ⟨u', hwrite, hu'⟩ := write_run hm (w := u) gitignore _
        refine ⟨u', by rw [Fx.bind_run, Fx.attempt_run, hwrite]; rfl, fun q hq => ?_, ?_⟩
        · rw [hu', Function.update_of_ne hq, hu.fs q (by simp)]
        · simp [hu']

end

/-! ## How a storing command ends -/

/-- The entries of the vault file are what they were. -/
def SameEntries (path : Path) (w w' : Disk) : Prop :=
  ∀ body, Entries (w'.fs path) body ↔ Entries (w.fs path) body

/-- The same file has the same entries. -/
theorem SameEntries.of_fs {path : Path} {w w' : Disk} (h : w'.fs path = w.fs path) :
    SameEntries path w w' := by
  intro body
  rw [h]

/-- A file may be another one with the same entries, as after a migration. -/
theorem SameEntries.of_entries {path : Path} {w w' : Disk} {body : VaultBody}
    (h : Entries (w.fs path) body) (h' : Entries (w'.fs path) body) : SameEntries path w w' := by
  intro b
  constructor
  · intro hb
    rw [hb.unique h']
    exact h
  · intro hb
    rw [hb.unique h]
    exact h'

/-- Bindings have been saved over the entries of the vault file. -/
structure Saves (path : Path) (w : Disk) (body : VaultBody) (items : List (Str × Str × UInt8))
    (body' : VaultBody) (w' : Disk) : Prop where
  before : Entries (w.fs path) body
  after : Entries (w'.fs path) body'
  view : body'.view = putAll body.view items

/-- The bindings are saved over the entries of any earlier state. -/
theorem Saves.from {path : Path} {v w w' : Disk} {body body' : VaultBody}
    {items : List (Str × Str × UInt8)} (h : Saves path w body items body' w')
    (hentries : Entries (v.fs path) body) : Saves path v body items body' w' :=
  ⟨hentries, h.after, h.view⟩

/-- Bindings that agree are all there once they are saved. -/
theorem Saves.value? {path : Path} {w w' : Disk} {body body' : VaultBody}
    {items : List (Str × Str × UInt8)} (h : Saves path w body items body' w')
    (hagree : Agree (keyValues items)) {i : Str × Str × UInt8} (hi : i ∈ items) :
    body'.value? i.1 = some i.2.1 := by
  have hmem : (i.1, i.2.1) ∈ keyValues items := List.mem_map.mpr ⟨i, hi, rfl⟩
  have hlast : last (keyValues items) i.1 = some i.2.1 := agree_iff.mp hagree _ hmem
  have hview : last (keyValues items) i.1 = (last items i.1).map Prod.fst :=
    last_map Prod.fst items i.1
  obtain ⟨x, hx⟩ : ∃ x, last items i.1 = some x :=
    Option.isSome_iff_exists.mp (last_isSome.mpr ⟨i.2, hi⟩)
  rw [VaultBody.value?_eq_view, h.view, putAll_apply, hx]
  rw [hview, hx] at hlast
  exact hlast

/-- A storing command has failed and the entries are what they were, or it had
nothing to do, or it has saved bindings that `task` says, and then it succeeds
if they agree and fails if they do not. -/
inductive Ends {α : Type} (path : Path) (w : Disk)
    (task : VaultBody → List (Str × Str × UInt8) → Prop)
    (lists : α → List (Str × Str × UInt8) → Prop) : Result α → Disk → Prop
  | failed {e : Halt} {w' : Disk} (h : SameEntries path w w') : Ends path w task lists (.error e) w'
  | idle {a : α} {w' : Disk} (h : SameEntries path w w') (hlists : lists a [])
      (hnone : ∀ body items, task body items → items = []) : Ends path w task lists (.ok a) w'
  | stored {a : α} {w' : Disk} {body body' : VaultBody} {items : List (Str × Str × UInt8)}
      (htask : task body items) (hsaves : Saves path w body items body' w')
      (hagree : Agree (keyValues items)) (hlists : lists a items) :
    Ends path w task lists (.ok a) w'
  | unverified {msg : String} {w' : Disk} {body body' : VaultBody}
      {items : List (Str × Str × UInt8)} (htask : task body items)
      (hsaves : Saves path w body items body' w') (hdisagree : ¬Agree (keyValues items)) :
    Ends path w task lists (.error (.err msg)) w'

/-- The same tasks, said in other words. -/
theorem Ends.congr {α : Type} {path : Path} {w w' : Disk}
    {task task' : VaultBody → List (Str × Str × UInt8) → Prop}
    {lists : α → List (Str × Str × UInt8) → Prop} {r : Result α} (h : Ends path w task lists r w')
    (hiff : ∀ body items, task body items ↔ task' body items) : Ends path w task' lists r w' := by
  rw [← show task = task' from funext₂ fun body items => propext (hiff body items)]
  exact h

theorem Ends.listing {α : Type} {path : Path} {w w' : Disk}
    {task : VaultBody → List (Str × Str × UInt8) → Prop}
    {lists lists' : α → List (Str × Str × UInt8) → Prop} {r : Result α}
    (h : Ends path w task lists r w') (hlists : ∀ a items, lists a items → lists' a items) :
    Ends path w task lists' r w' := by
  cases h with
  | failed hsame => exact .failed hsame
  | idle hsame hnil hnone => exact .idle hsame (hlists _ _ hnil) hnone
  | stored htask hsaves hagree hstored => exact .stored htask hsaves hagree (hlists _ _ hstored)
  | unverified htask hsaves hdisagree => exact .unverified htask hsaves hdisagree

/-- Bindings have been saved, and the entries are not what they were. -/
def Commits (path : Path) (w : Disk) (body : VaultBody) (items : List (Str × Str × UInt8))
    (w' : Disk) : Prop :=
  ∃ body', Saves path w body items body' w' ∧ body' ≠ body

/-- A command that saved what it had to store has changed the entries. -/
theorem Commits.not_same {path : Path} {w w' : Disk} {body : VaultBody}
    {items : List (Str × Str × UInt8)} (h : Commits path w body items w') :
    ¬SameEntries path w w' := by
  obtain ⟨body', hsaves, hne⟩ := h
  exact fun hsame => hne (hsaves.after.unique ((hsame body).mpr hsaves.before))

section

variable {m : Machine} {path : Path} {w : Disk} (hm : m.Faultless)

include hm

/-- The vault opens to the entries that it holds. -/
theorem openVault_found {unlock : Unlock} {body : VaultBody}
    (h : unlock.Opens path (w.fs path) body) :
    ∃ store v, (openVault path unlock).run m w = (.ok store, v) ∧ store.Current path v ∧
      store.body = body ∧ v.ticks = w.ticks ∧ ∀ q ∉ vaultFiles path, v.fs q = w.fs q := by
  have hopens : Opening path w (unlock.Opens path (w.fs path)) ((openVault path unlock).run m w) :=
    openVault_opens hm unlock
  have hticks : ((openVault path unlock).run m w).2.ticks = w.ticks :=
    (openVault_footprint subset_rfl unlock).run_ticks
  have hothers : ∀ q ∉ vaultFiles path, ((openVault path unlock).run m w).2.fs q = w.fs q :=
    fun q hq => (openVault_footprint subset_rfl unlock).run_fs hq
  rcases hrun : (openVault path unlock).run m w with ⟨r, v⟩
  rw [hrun] at hopens hticks hothers
  cases r with
  | ok store => exact ⟨store, v, rfl, hopens.1, hopens.2.entries.unique h.entries, hticks, hothers⟩
  | error e => exact absurd h (hopens.2.2 body)

/-- The vault does not open, and its file is as it was. -/
theorem openVault_refused {unlock : Unlock} (h : ∀ body, ¬unlock.Opens path (w.fs path) body) :
    ∃ msg v, (openVault path unlock).run m w = (.error (.err msg), v) ∧
      v.fs path = w.fs path := by
  have hopens : Opening path w (unlock.Opens path (w.fs path)) ((openVault path unlock).run m w) :=
    openVault_opens hm unlock
  rcases hrun : (openVault path unlock).run m w with ⟨r, v⟩
  rw [hrun] at hopens
  cases r with
  | ok store => exact absurd hopens.2 (h store.body)
  | error e =>
    obtain ⟨⟨msg, rfl⟩, hfs, -⟩ := hopens
    exact ⟨msg, v, rfl, hfs⟩

end

end HearthVault
