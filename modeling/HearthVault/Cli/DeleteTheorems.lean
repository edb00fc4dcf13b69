/-
HearthVault.Cli.DeleteTheorems — whether a delete can be undone.

`delete` takes a snapshot first, under a name that ends in whole seconds, and
only warns when that fails. A `Deletions` is a run of commands with what has
been deleted in it. When every delete finds the name of its snapshot free, or
a snapshot that serves already, then a snapshot holds each key that was
deleted, with its value (`deletions_undoable`); a second delete within one
second need not find it (`delete_not_undoable`).
-/
import HearthVault.Cli.Footprints
import HearthVault.Cli.TierTheorems
import HearthVault.Store.Outcomes

namespace HearthVault

open Files Symbolic Calendar

/-! ## Runs with deletes -/

/-- The vault holds the key with this value, for those who can open it. -/
def VaultHolds (path : Path) (unlock : Unlock) (key value : Str) (w : Disk) : Prop :=
  ∃ body : VaultBody, body.value? key = some value ∧ (sealedBody (w.fs path) = some body ∨
    ∃ text file, w.fs path = some (.v1 text file) ∧
      ∃ p ∈ unlockPassphrases unlock, convertV1 file p = .ok body)

/-- A snapshot beside the vault holds the key with this value. -/
def SnapshotHolds (path : Path) (key value : Str) (w : Disk) : Prop :=
  ∃ now body, sealedBody (w.fs (backupTarget path now)) = some body ∧
    VaultBody.value? body key = some value

section

variable [JsonText] [Chrono]

/-- The command removes the key, and was not told to take no snapshot. -/
structure Deletes (path : Path) (inv : Invocation) (w : Disk) (key value : Str) : Prop where
  command : inv.command = .delete key false
  answer : ((inv.command.run path inv.unlock).run inv.machine w).1 = .ok ()
  value : VaultHolds path inv.unlock key value w

/-- The commands of such a run: an import leaves the snapshots alone, and a
delete runs without faults and finds the name of its snapshot free, or a
snapshot that holds what it deletes. -/
def FindsSnapshot (path : Path) (inv : Invocation) (w : Disk) : Prop :=
  match inv.command with
  | .set _ _ _ _ | .rename _ _ | .retier _ _ | .delete _ true => True
  | .import file _ _ => ∀ now, backupTarget path now ≠ file.path
  | .delete key false => inv.machine.Faultless ∧
    (w.fs (backupTarget path (inv.machine.clock w.ticks)) = none ∨
      ∀ value, VaultHolds path inv.unlock key value w → SnapshotHolds path key value w)
  | _ => False

/-- What has been deleted in a run, and the disk it leads to. -/
inductive Deletions (path : Path) (ok : Invocation → Disk → Prop) :
    List (Str × Str) → Disk → Prop where
  | start (w : Disk) : Deletions path ok [] w
  | step {deleted : List (Str × Str)} {w : Disk} (inv : Invocation) :
      Deletions path ok deleted w → ok inv w → Deletions path ok deleted (inv.exec path w)
  | delete {deleted : List (Str × Str)} {w : Disk} {key value : Str} (inv : Invocation) :
      Deletions path ok deleted w → ok inv w → Deletes path inv w key value →
      Deletions path ok ((key, value) :: deleted) (inv.exec path w)

end

/-! ## One delete -/

section

variable {m : Machine} {path : Path} {w : Disk}

/-- Without faults the vault file is copied to a free name. -/
theorem writeBackup_run (hm : m.Faultless) {c : Contents} (h : w.fs path = some c)
    (hfree : w.fs (backupTarget path (m.clock w.ticks)) = none) :
    ∃ w', (writeBackup path).run m w = (.ok (backupTarget path (m.clock w.ticks)), w') ∧
      w'.fs (backupTarget path (m.clock w.ticks)) = some c := by
  set target := backupTarget path (m.clock w.ticks) with htarget
  set w₁ : Disk := w.tick (.stat path) with hw₁
  set w₂ : Disk := { w₁ with ticks := w₁.ticks + 1 } with hw₂
  set w₃ : Disk := w₂.tick (.stat target) with hw₃
  set w₄ : Disk := (w₃.tick (.read path)).tick (.mkdir target.dir) with hw₄
  obtain ⟨w', hwrite, -, hnew⟩ := writePrivate_run hm target c w₄
  have hexists : (Fx.pathExists path : Prog Bool).run m w = (.ok true, w₁) := by
    rw [Fx.pathExists_run hm, h]
    rfl
  have hnow : (Fx.now : Prog Int).run m w₁ = (.ok (m.clock w.ticks), w₂) := rfl
  have hsome : (Fx.pathExists target : Prog Bool).run m w₂ = (.ok false, w₃) := by
    rw [Fx.pathExists_run hm]
    simp [hw₂, hw₁, hfree, hw₃]
  have hread : (Fx.read path : Prog Contents).run m w₃ = (.ok c, w₃.tick (.read path)) :=
    Fx.read_run hm h
  have hmkdir : (Fx.mkdir target.dir : Prog Unit).run m (w₃.tick (.read path)) = (.ok (), w₄) :=
    Fx.check_run hm _ _ _
  refine ⟨w', ?_, hnew⟩
  unfold writeBackup
  rw [Fx.bind_run_ok hexists, Fx.bind_run_ok (Fx.ensure_run rfl _ m w₁), Fx.bind_run_ok hnow]
  dsimp only
  rw [← htarget, Fx.bind_run_ok hsome, Fx.bind_run_ok (Fx.ensure_run (by simp) _ m w₃),
    Fx.bind_run_ok hread, Fx.bind_run_ok hmkdir, Fx.bind_run_ok (Fx.mapErr_eq_ok.mpr hwrite)]
  rfl

/-- A snapshot that is there is left alone, and so is a name that is not the
one of this second. -/
theorem writeBackup_keeps_snapshots (hm : m.Faultless) {K : Option Contents → Prop}
    {now : DateTime} (hK : ∀ n c, backupTarget path now = backupTarget path (m.clock n) → K c →
      c.isSome = true) :
    Fx.Keeps m (backupTarget path now) K (writeBackup path) fun _ => True := by
  refine Fx.Keeps.pathExists.bind fun _ _ => Fx.Keeps.ensure.bind fun _ _ => ?_
  refine Fx.Keeps.bind (A := fun t => ∃ n, t = m.clock n) ?_ fun t ht => ?_
  · exact fun w hw => ⟨⟨w.ticks, rfl⟩, hw⟩
  obtain ⟨n, rfl⟩ := ht
  refine Fx.Keeps.bind
    (A := fun b => b = true ∨ backupTarget path now ≠ backupTarget path (m.clock n))
    (fun w hw => ?_) fun taken htaken => ?_
  · rw [Fx.pathExists_run hm]
    refine ⟨?_, hw⟩
    by_cases heq : backupTarget path now = backupTarget path (m.clock n)
    · exact .inl (by rw [← heq]; exact hK n _ heq hw)
    · exact .inr heq
  refine Fx.Keeps.ensure.bind fun _ hfree => ?_
  have hother : backupTarget path now ∉ privateFiles (backupTarget path (m.clock n)) := by
    rintro (heq | ⟨i, heq⟩)
    · obtain h | h := htaken
      · exact hfree h
      · exact h heq
    · exact tmpPath_ne_backupTarget _ path i now heq.symm
  have hrest : (do
      let contents ← Fx.read path
      Fx.mkdir (backupTarget path (m.clock n)).dir
      Fx.mapErr ("failed to write backup: " ++ ·)
        (writePrivate (backupTarget path (m.clock n)) contents)
      pure (backupTarget path (m.clock n)) : Prog Path).Footprint
      (privateFiles (backupTarget path (m.clock n))) true fun _ => True :=
    Fx.Footprint.read.bind fun c _ => (Fx.Footprint.check fun _ => rfl).bind fun _ _ =>
      (writePrivate_footprint subset_rfl c).mapErr.bind fun _ _ => .pure trivial
  exact hrest.keeps hother

/-- What a v1 file holds under a key does not depend on who opens it. -/
theorem convertV1_value {file : VaultFileV1} {p q : Str} {body body' : VaultBody}
    (h : convertV1 file p = .ok body) (h' : convertV1 file q = .ok body') {key value value' : Str}
    (hvalue : body.value? key = some value) (hvalue' : body'.value? key = some value') :
    value' = value := by
  obtain ⟨entry, hentry, rfl⟩ := Option.map_eq_some_iff.mp hvalue
  obtain ⟨entry', hentry', rfl⟩ := Option.map_eq_some_iff.mp hvalue'
  obtain ⟨old, v, hold, ⟨salt, nonce, -, hc⟩, rfl⟩ :=
    ((convertV1_eq_ok h).entries key entry).mp hentry
  obtain ⟨old', v', hold', ⟨salt', nonce', -, hc'⟩, rfl⟩ :=
    ((convertV1_eq_ok h').entries key entry').mp hentry'
  rw [hold] at hold'
  cases hold'
  rw [hc] at hc'
  cases hc'
  rfl

/-- Whoever opens the vault finds no other value under the key. -/
theorem VaultHolds.holdsBody {unlock : Unlock} {key value : Str}
    (h : VaultHolds path unlock key value w) :
    HoldsBody (fun body => ∀ v, body.value? key = some v → v = value) (unlockPassphrases unlock)
      (w.fs path) := by
  obtain ⟨body, hvalue, hsealed | ⟨text, file, hfile, p, -, hbody⟩⟩ := h
  · constructor
    · intro body' hbody' v hv
      rw [hsealed] at hbody'
      cases hbody'
      rw [hvalue] at hv
      cases hv
      rfl
    · intro text file passphrase body' hfile
      rw [hfile] at hsealed
      cases hsealed
  · rw [hfile]
    constructor
    · nofun
    · rintro _ _ passphrase body' ⟨⟩ - hbody' v hv
      exact convertV1_value hbody hbody' hvalue hv

/-- A delete that finds the name of its snapshot free leaves the key in it. -/
theorem cmdDelete_snapshots (hm : m.Faultless) {unlock : Unlock} {key value : Str}
    (hpath : ∀ now, backupTarget path now ≠ path)
    (hfree : w.fs (backupTarget path (m.clock w.ticks)) = none)
    (hvalue : VaultHolds path unlock key value w) {w' : Disk}
    (h : (cmdDelete path unlock key false).run m w = (.ok (), w')) :
    SnapshotHolds path key value w' := by
  obtain ⟨opened, w₁, hopen, h⟩ := Fx.bind_eq_ok.mp h
  obtain ⟨store, w₂, hrefresh, h⟩ := Fx.bind_eq_ok.mp h
  obtain ⟨_, v₂, hhas, h⟩ := Fx.bind_eq_ok.mp h
  obtain ⟨_, w₃, hbackup, h⟩ := Fx.bind_eq_ok.mp h
  obtain ⟨store', w₄, hsave, h⟩ := Fx.bind_eq_ok.mp h
  cases h
  obtain ⟨hkey, rfl⟩ := Fx.ensure_eq_ok.mp hhas
  set target := backupTarget path (m.clock w.ticks) with htarget
  have hother : target ∉ vaultFiles path := backupTarget_notMem_vaultFiles (hpath _)
  -- The vault is opened and read again: its body has the value.
  obtain ⟨⟨rfl, -⟩, hholds⟩ := (openVault_keeps nofun unlock).run_value hvalue.holdsBody hopen
  obtain ⟨⟨-, hbody⟩, -⟩ := (VaultStore.lockAndRefresh_keeps rfl).run_value hholds hrefresh
  have hmeets := VaultStore.lockAndRefresh_meets (m := m) opened w₁ (.refl ∅ w₁)
  rw [hrefresh] at hmeets
  obtain ⟨hframe, c, hc, hstore⟩ := hmeets
  obtain ⟨-, hsealed⟩ := VaultStore.refresh_eq_ok hstore
  have hkeyvalue : store.body.value? key = some value := by
    obtain ⟨entry, hentry⟩ := Option.isSome_iff_exists.mp hkey
    have hv : store.body.value? key = some entry.value := by simp [VaultBody.value?, hentry]
    rw [hv, hbody _ hv]
  -- Opening has changed neither the snapshots nor the clock.
  have hfs₁ : ((openVault opened.path unlock).run m w).2.fs target = w.fs target :=
    (openVault_footprint subset_rfl unlock).run_fs hother
  have hticks₁ : ((openVault opened.path unlock).run m w).2.ticks = w.ticks :=
    (openVault_footprint subset_rfl unlock).run_ticks
  rw [hopen] at hfs₁ hticks₁
  have hticks : w₂.ticks = w.ticks := hframe.ticks.trans hticks₁
  have hfree₂ : w₂.fs (backupTarget opened.path (m.clock w₂.ticks)) = none := by
    rw [hticks, hframe.fs _ (by simp), ← hfree]
    exact hfs₁
  obtain ⟨w₃', hwritten, hnew⟩ :=
    writeBackup_run hm (hframe.fs opened.path (by simp) ▸ hc) hfree₂
  have hattempt : (Fx.attempt (writeBackup opened.path)).run m w₂ =
      (.ok (.ok (backupTarget opened.path (m.clock w₂.ticks))), w₃') := by
    rw [Fx.attempt_run, hwritten]
    rfl
  have hdone : w₃' = w₃ := by
    simp only [Fx.when, if_true] at hbackup
    rw [Fx.bind_run_ok hattempt] at hbackup
    cases hbackup
    rfl
  -- The save leaves the snapshot alone.
  have hpathd : VaultStore.At opened.path
      { store with body := (deleteEntry key store.body).1 } := (VaultStore.refresh_eq_ok hstore).1
  have hsaved := (VaultStore.save_footprint (privateFiles_subset _) hpathd).run_fs
    (m := m) (w := w₃) hother
  rw [hsave] at hsaved
  refine ⟨m.clock w.ticks, store.body, ?_, hkeyvalue⟩
  rw [hsaved, ← hdone, htarget, ← hticks, hnew]
  exact hsealed

/-- And so does a delete. -/
theorem cmdDelete_keeps_snapshots (hm : m.Faultless) {unlock : Unlock} {key : Str}
    {now : DateTime} (hpath : backupTarget path now ≠ path) {K : Option Contents → Prop}
    (hK : ∀ n c, backupTarget path now = backupTarget path (m.clock n) → K c → c.isSome = true) :
    Fx.Keeps m (backupTarget path now) K (cmdDelete path unlock key false) fun _ => True := by
  have hother : backupTarget path now ∉ vaultFiles path := backupTarget_notMem_vaultFiles hpath
  refine Fx.Keeps.bind ((openVault_footprint subset_rfl unlock).keeps hother)
    fun store h => ?_
  refine Fx.Keeps.bind ((VaultStore.lockAndRefresh_footprint h).keeps hother)
    fun store h => ?_
  refine Fx.Keeps.ensure.bind fun _ _ => (Fx.Keeps.when fun _ => ?_).bind fun _ _ => ?_
  · exact (writeBackup_keeps_snapshots hm hK).attempt.bind fun _ _ => Fx.Keeps.pure trivial
  · have hdeleted : VaultStore.At path { store with body := (deleteEntry key store.body).1 } := h
    refine Fx.Keeps.bind ((VaultStore.save_footprint (privateFiles_subset _) hdeleted).keeps
      hother) fun _ _ => Fx.Keeps.pure trivial

end

/-! ## Runs -/

section

variable [JsonText] [Chrono] {path : Path} (hpath : ∀ now, backupTarget path now ≠ path)

include hpath

/-- What a snapshot holds it goes on to hold. -/
theorem SnapshotHolds.exec {key value : Str} {w : Disk} {inv : Invocation}
    (h : SnapshotHolds path key value w) (hok : FindsSnapshot path inv w) :
    SnapshotHolds path key value (inv.exec path w) := by
  obtain ⟨now, body, hsealed, hvalue⟩ := h
  have hother : backupTarget path now ∉ vaultFiles path :=
    backupTarget_notMem_vaultFiles (hpath now)
  suffices hkeeps : Fx.Keeps inv.machine (backupTarget path now) (fun c => sealedBody c = some body)
      (inv.command.run path inv.unlock) fun _ => True from
    ⟨now, body, hkeeps.run hsealed, hvalue⟩
  obtain ⟨m, unlock, command⟩ := inv
  cases command with
  | set keys tier days expires => exact cmdSet_footprint.keeps hother
  | «import» file key tier =>
    refine cmdImport_footprint.keeps ?_
    rintro (heq | hmem)
    · exact hok now heq
    · exact hother hmem
  | rename source target => exact cmdRename_footprint.keeps hother
  | retier key tier => exact cmdRetier_footprint.keeps hother
  | delete key noBackup =>
    cases noBackup with
    | true => exact cmdDelete_footprint.keeps hother
    | false =>
      refine cmdDelete_keeps_snapshots hok.1 (hpath now) fun _ c _ hc => ?_
      cases c with
      | none => cases hc
      | some c => rfl
  | importEnv file pre tier keep force => exact hok.elim
  | receive file dryRun pre force => exact hok.elim
  | scanAdopt findings pre force marker => exact hok.elim

/-- In every run whose deletes find the name of their snapshot free, or a
snapshot that serves already, every key deleted is in a snapshot with the
value it had. -/
theorem deletions_undoable {deleted : List (Str × Str)} {w : Disk}
    (h : Deletions path (FindsSnapshot path) deleted w) :
    ∀ p ∈ deleted, SnapshotHolds path p.1 p.2 w := by
  induction h with
  | start w => simp
  | step inv _ hok ih =>
    intro p hp
    exact (ih p hp).exec hpath hok
  | @delete deleted w key value inv _ hok hdel ih =>
    intro p hp
    obtain rfl | hp := List.mem_cons.mp hp
    · obtain ⟨m, unlock, command⟩ := inv
      obtain ⟨hcommand, hanswer, hvalue⟩ := hdel
      dsimp only at hcommand hanswer hvalue
      subst hcommand
      obtain ⟨hm, hfree | hserves⟩ := hok
      · rcases hrun : (cmdDelete path unlock key false).run m w with ⟨r, w'⟩
        have hexec : Invocation.exec path ⟨m, unlock, .delete key false⟩ w = w' := by
          rw [Invocation.exec]
          exact congrArg Prod.snd hrun
        rw [hexec]
        have hr : r = .ok () := (congrArg Prod.fst hrun).symm.trans hanswer
        exact cmdDelete_snapshots hm hpath hfree hvalue (hr ▸ hrun)
      · exact (hserves value hvalue).exec hpath ⟨hm, .inr hserves⟩
    · exact (ih p hp).exec hpath hok

end

/-! ## Two deletes in one second -/

/-- The commands that change the vault by its user's hand. -/
def Command.Edits : Command → Prop
  | .set _ _ _ _ | .import _ _ _ | .rename _ _ | .retier _ _ | .delete _ _ => True
  | _ => False

/-- A command without faults, while the clock stands still. -/
def quietly (command : Command) : Invocation :=
  ⟨.quiet, ⟨none, none, "pw".toList⟩, command⟩

def setK (value : Str) : Invocation :=
  quietly (.set [("k".toList, value)] none none none)

def deleteK : Invocation :=
  quietly (.delete "k".toList false)

theorem vaultHolds_of_value {path : Path} {unlock : Unlock} {key value : Str} {w : Disk}
    (h : (sealedBody (w.fs path)).bind (VaultBody.value? · key) = some value) :
    VaultHolds path unlock key value w := by
  obtain ⟨body, hbody, hvalue⟩ := Option.bind_eq_some_iff.mp h
  exact ⟨body, hvalue, .inl hbody⟩

/-- The same command a second later. -/
def Invocation.later (inv : Invocation) : Invocation :=
  { inv with machine := { Machine.quiet with clock := fun _ => 1000000000 } }

/-- A key is set, deleted, set again, and deleted again in a later second. -/
def deletedTwice [JsonText] [Chrono] : Disk :=
  deleteK.later.exec vaultJson ((setK "2".toList).exec vaultJson
    (deleteK.exec vaultJson ((setK "1".toList).exec vaultJson blankDisk)))

/-- Each value that was deleted is in a snapshot. -/
theorem deletions_undoable_twice :
    letI := noJsonText
    letI := noDates
    SnapshotHolds vaultJson "k".toList "2".toList deletedTwice ∧
      SnapshotHolds vaultJson "k".toList "1".toList deletedTwice := by
  let _ := noJsonText
  let _ := noDates
  have hrun : Deletions vaultJson (FindsSnapshot vaultJson)
      [("k".toList, "2".toList), ("k".toList, "1".toList)] (deleteK.later.exec vaultJson
        ((setK "2".toList).exec vaultJson
          (deleteK.exec vaultJson ((setK "1".toList).exec vaultJson blankDisk)))) := by
    refine .delete deleteK.later (.step (setK "2".toList) (.delete deleteK
      (.step (setK "1".toList) (.start blankDisk) trivial) ?_ ⟨rfl, ?_, ?_⟩) trivial) ?_
      ⟨rfl, ?_, ?_⟩
    · exact ⟨Machine.quiet_faultless, .inl (by decide +kernel)⟩
    · decide +kernel
    · exact vaultHolds_of_value (by decide +kernel)
    · exact ⟨fun _ _ => rfl, .inl (by decide +kernel)⟩
    · decide +kernel
    · exact vaultHolds_of_value (by decide +kernel)
  have hholds := deletions_undoable backupTarget_ne_vaultJson hrun
  unfold deletedTwice
  exact ⟨hholds ("k".toList, "2".toList) (by simp), hholds ("k".toList, "1".toList) (by simp)⟩

/-- A key that is set again and deleted again within one second is in no
snapshot with its second value. -/
theorem delete_not_undoable :
    ¬∀ (_ : JsonText) (_ : Chrono) (path : Path) (deleted : List (Str × Str)) (w : Disk),
      (∀ now, backupTarget path now ≠ path) →
      Deletions path (fun inv _ => inv.machine = .quiet ∧ inv.command.Edits) deleted w →
        ∀ p ∈ deleted, SnapshotHolds path p.1 p.2 w := by
  intro h
  let _ := noJsonText
  let _ := noDates
  set w₁ : Disk := (setK "1".toList).exec vaultJson blankDisk with hw₁
  set w₂ : Disk := deleteK.exec vaultJson w₁ with hw₂
  set w₃ : Disk := (setK "2".toList).exec vaultJson w₂ with hw₃
  set w₄ : Disk := deleteK.exec vaultJson w₃ with hw₄
  have hrun : Deletions vaultJson (fun inv _ => inv.machine = .quiet ∧ inv.command.Edits)
      [("k".toList, "2".toList)] w₄ := by
    refine .delete deleteK (.step (setK "2".toList) (.step deleteK (.step (setK "1".toList)
      (.start blankDisk) ⟨rfl, trivial⟩) ⟨rfl, trivial⟩) ⟨rfl, trivial⟩) ⟨rfl, trivial⟩
      ⟨rfl, ?_, ?_⟩
    · decide +kernel
    · exact vaultHolds_of_value (by decide +kernel)
  obtain ⟨now, body, hsealed, hvalue⟩ :=
    h noJsonText noDates vaultJson _ w₄ backupTarget_ne_vaultJson hrun _
      (List.mem_singleton.mpr rfl)
  by_cases hnow : backupTarget vaultJson now = backupTarget vaultJson 0
  · -- The one snapshot there is holds the first value.
    have hfirst : (sealedBody (w₄.fs (backupTarget vaultJson 0))).bind
        (VaultBody.value? · "k".toList) = some "1".toList := by decide +kernel
    rw [← hnow, hsealed, Option.bind_some, hvalue] at hfirst
    exact absurd hfirst (by decide)
  · have hother : backupTarget vaultJson now ∉ vaultFiles vaultJson :=
      backupTarget_notMem_vaultFiles (backupTarget_ne_vaultJson now)
    have hset : ∀ value w, w.fs (backupTarget vaultJson now) = none →
        ((setK value).exec vaultJson w).fs (backupTarget vaultJson now) = none :=
      fun value w hw => (cmdSet_footprint.run_fs hother).trans hw
    have hdelete : ∀ w : Disk, w.fs (backupTarget vaultJson now) = none →
        (deleteK.exec vaultJson w).fs (backupTarget vaultJson now) = none := by
      intro w hw
      have hkeeps : Fx.Keeps .quiet (backupTarget vaultJson now) (· = none)
          (cmdDelete vaultJson deleteK.unlock "k".toList false) fun _ => True :=
        cmdDelete_keeps_snapshots Machine.quiet_faultless (backupTarget_ne_vaultJson now)
          fun n c heq => absurd heq hnow
      exact hkeeps.run hw
    have hnone₁ : w₁.fs (backupTarget vaultJson now) = none := hset "1".toList blankDisk rfl
    have hnone₂ : w₂.fs (backupTarget vaultJson now) = none := by
      rw [hw₂]
      exact hdelete w₁ hnone₁
    have hnone₃ : w₃.fs (backupTarget vaultJson now) = none := by
      rw [hw₃]
      exact hset "2".toList w₂ hnone₂
    rw [hw₄, hdelete w₃ hnone₃] at hsealed
    cases hsealed

end HearthVault
