/-
HearthVault.Hsm.SealTheorems — sealing the vaults of a host one after another.

`Sealing` is a host with the passphrase last sealed for each vault beside it.
The sealed file of a vault is a label, and all of them the same, so there is
one passphrase for the whole keyring: `cmdSeal_keeps_label` keeps the labels,
and a vault unseals to its own passphrase exactly while no other passphrase is
sealed (`unseals_iff_apart`).
-/
import HearthVault.Cli.Footprints
import HearthVault.Cli.Opening
import HearthVault.Cli.TierTheorems
import HearthVault.Hsm.OsKeyring

namespace HearthVault

open Files Symbolic

/-- A run of `seal`: the machine during it, the vault, and what is typed. -/
structure SealCommand where
  machine : Machine
  path : Path
  passphrase : Str

/-- A host and the passphrase last sealed for each of its vaults. -/
structure Sealing where
  host : Host
  own : Path → Option Str

namespace Sealing

/-- A host before any vault is sealed. -/
def start (host : Host) : Sealing :=
  ⟨host, fun _ => none⟩

def step (s : Sealing) (c : SealCommand) : Sealing :=
  match cmdSeal c.machine c.path c.passphrase s.host with
  | (.ok _, host) => ⟨host, Function.update s.own c.path (some c.passphrase)⟩
  | (.error _, host) => ⟨host, s.own⟩

def run (s : Sealing) (commands : List SealCommand) : Sealing :=
  commands.foldl step s

/-- Every vault unseals to the passphrase last sealed for it. -/
def Unseals [JsonText] (s : Sealing) : Prop :=
  ∀ path passphrase, s.own path = some passphrase → autoUnseal s.host path = .ok passphrase

/-- Nobody else's passphrase is lost by a seal. A fault may come between the
keyring and the file, and then the passphrase of the vault itself may be. -/
def Apart (s : Sealing) (c : SealCommand) : Prop :=
  (c.machine.Faultless ∧
    ((∃ body, PassphraseOpens c.path c.passphrase (s.host.disk.fs c.path) body) →
      ∀ path passphrase, path ≠ c.path → s.own path = some passphrase →
        passphrase = c.passphrase)) ∨
  (c.path.name ≠ "vault-passphrase.sealed".toList ∧
    ∀ path passphrase, s.own path = some passphrase → passphrase = c.passphrase)

/-- Every command of a run is apart in the state before it. -/
def AllApart : Sealing → List SealCommand → Prop
  | _, [] => True
  | s, c :: commands => s.Apart c ∧ AllApart (s.step c) commands

end Sealing

/-! ## What one seal does -/

/-- `write_private` as a change of the files. -/
theorem writePrivate_fs (m : Machine) (path : Path) (bytes : Contents) (w : Disk) :
    (∀ q, q ≠ path → q ≠ tmpPath path m.pid → ((writePrivate path bytes).run m w).2.fs q = w.fs q) ∧
      (((writePrivate path bytes).run m w).2.fs path = w.fs path ∨
        ((writePrivate path bytes).run m w).2.fs path = some bytes) ∧
      (((writePrivate path bytes).run m w).1 = .ok () →
        ((writePrivate path bytes).run m w).2.fs path = some bytes) := by
  have hatomic := writePrivate_atomic m path bytes w w (.refl ∅ w)
  rcases hrun : (writePrivate path bytes).run m w with ⟨r, w'⟩
  rw [hrun] at hatomic
  cases r with
  | ok u =>
    obtain ⟨hframe, hnew⟩ := hatomic
    exact ⟨fun q hq htmp => hframe.fs q (by simp [hq, htmp]), .inr hnew, fun _ => hnew⟩
  | error e =>
    obtain ⟨hframe, hfs⟩ := hatomic
    exact ⟨fun q hq htmp => hframe.fs q (by simp [hq, htmp]), hfs, nofun⟩

theorem sealedPassphrasePath_notMem_vaultFiles {path path' : Path}
    (h : sealedPassphrasePath path ≠ path') : sealedPassphrasePath path ∉ vaultFiles path' := by
  rintro (heq | heq | ⟨i, heq⟩)
  · exact h heq
  · have hlast := congrArg (fun p => p.name.reverse.head?) heq
    simp [sealedPassphrasePath, backupPathFor, Path.withFileName] at hlast
  · exact sealedPassphrasePath_ne_tmpPath path path' i heq

theorem ofBlob_sealLabel : Contents.ofBlob (Str.utf8 sealLabel) = .text sealLabel := by
  rw [Contents.ofBlob, Str.fromUtf8_utf8]

section

variable {m : Machine} {path q : Path} {passphrase : Str} {host : Host}

/-- Opening a vault leaves a sealed file alone, unless it is the vault and a
fault keeps the check from seeing it. -/
theorem openAtWithPassphrase_keeps_label
    (h : host.disk.fs (sealedPassphrasePath q) = some (.text sealLabel))
    (hm : m.Faultless ∨ path.name ≠ "vault-passphrase.sealed".toList) :
    ((VaultStore.openAtWithPassphrase path passphrase).run m host.disk).2.fs
      (sealedPassphrasePath q) = some (.text sealLabel) := by
  by_cases hpath : sealedPassphrasePath q = path
  · obtain hm | hname := hm
    · subst hpath
      obtain ⟨msg, w', hrun, hw'⟩ :=
        VaultStore.openAtWithPassphrase_other hm h nofun nofun passphrase
      rw [hrun, hw'.fs _ (by simp), h]
    · rw [← hpath] at hname
      exact absurd rfl hname
  · rw [(VaultStore.openAtWithPassphrase_footprint subset_rfl passphrase).run_fs
      (sealedPassphrasePath_notMem_vaultFiles hpath), h]

/-- What `cmd_seal` does once the vault is open, and when it does not open. -/
theorem cmdSeal_eq_of_opens {store : VaultStore} {w : Disk}
    (h : (VaultStore.openAtWithPassphrase path passphrase).run m host.disk = (.ok store, w)) :
    cmdSeal m path passphrase host =
      (((writePrivate (sealedPassphrasePath path) (.text sealLabel)).run m w).1,
        ⟨((writePrivate (sealedPassphrasePath path) (.text sealLabel)).run m w).2,
          Function.update host.keyring (serviceName, sealLabel)
            (some (hexEncode (Str.utf8 passphrase)))⟩) := by
  rw [cmdSeal, h]
  dsimp only [osKeyringSeal]
  rw [ofBlob_sealLabel]

theorem cmdSeal_eq_of_fails {e : Halt} {w : Disk}
    (h : (VaultStore.openAtWithPassphrase path passphrase).run m host.disk = (.error e, w)) :
    cmdSeal m path passphrase host = (.error e, ⟨w, host.keyring⟩) := by
  rw [cmdSeal, h]

theorem cmdSeal_keeps_label
    (h : host.disk.fs (sealedPassphrasePath q) = some (.text sealLabel))
    (hm : m.Faultless ∨ path.name ≠ "vault-passphrase.sealed".toList) :
    (cmdSeal m path passphrase host).2.disk.fs (sealedPassphrasePath q) =
      some (.text sealLabel) := by
  have hopen := @openAtWithPassphrase_keeps_label m path q passphrase host h hm
  rcases hrun : (VaultStore.openAtWithPassphrase path passphrase).run m host.disk with ⟨_ | _, w⟩
  · rw [hrun] at hopen
    rw [cmdSeal_eq_of_fails hrun]
    exact hopen
  · rw [hrun] at hopen
    rw [cmdSeal_eq_of_opens hrun]
    obtain ⟨hothers, hfs, -⟩ := writePrivate_fs m (sealedPassphrasePath path) (.text sealLabel) w
    by_cases hq : sealedPassphrasePath q = sealedPassphrasePath path
    · rw [hq] at hopen ⊢
      obtain hold | hnew := hfs
      · exact hold.trans hopen
      · exact hnew
    · rw [hothers _ hq (sealedPassphrasePath_ne_tmpPath _ _ _)]
      exact hopen

theorem cmdSeal_writes_label (h : (cmdSeal m path passphrase host).1 = .ok ()) :
    (cmdSeal m path passphrase host).2.disk.fs (sealedPassphrasePath path) =
      some (.text sealLabel) := by
  rcases hrun : (VaultStore.openAtWithPassphrase path passphrase).run m host.disk with ⟨_ | _, w⟩
  · rw [cmdSeal_eq_of_fails hrun] at h
    cases h
  · rw [cmdSeal_eq_of_opens hrun] at h ⊢
    exact (writePrivate_fs m (sealedPassphrasePath path) (.text sealLabel) w).2.2 h

/-- The one slot of the keyring is as it was or has the passphrase, and it has
the passphrase when the seal succeeds. -/
theorem cmdSeal_keyring : ((cmdSeal m path passphrase host).1 ≠ .ok () ∧
      (cmdSeal m path passphrase host).2.keyring = host.keyring) ∨
    (cmdSeal m path passphrase host).2.keyring (serviceName, sealLabel) =
      some (hexEncode (Str.utf8 passphrase)) := by
  rcases hrun : (VaultStore.openAtWithPassphrase path passphrase).run m host.disk with ⟨_ | _, w⟩
  · rw [cmdSeal_eq_of_fails hrun]
    exact .inl ⟨nofun, rfl⟩
  · rw [cmdSeal_eq_of_opens hrun]
    refine .inr ?_
    dsimp only
    rw [Function.update_self]

/-- Without faults a seal succeeds if and only if the passphrase opens the
vault, and it leaves the keyring alone if not. -/
theorem cmdSeal_opens (hm : m.Faultless) :
    ((cmdSeal m path passphrase host).1 = .ok () ∧
        ∃ body, PassphraseOpens path passphrase (host.disk.fs path) body) ∨
      (cmdSeal m path passphrase host).1 ≠ .ok () ∧
        (cmdSeal m path passphrase host).2.keyring = host.keyring ∧
        ∀ body, ¬PassphraseOpens path passphrase (host.disk.fs path) body := by
  have hopening : Opening path host.disk _ _ :=
    VaultStore.openAtWithPassphrase_opens hm passphrase
  rcases hrun : (VaultStore.openAtWithPassphrase path passphrase).run m host.disk with ⟨_ | _, w⟩
  · rw [hrun] at hopening
    obtain ⟨-, -, hnone⟩ := hopening
    rw [cmdSeal_eq_of_fails hrun]
    exact .inr ⟨nofun, rfl, hnone⟩
  · rw [hrun] at hopening
    obtain ⟨w', hwrite, -⟩ := writePrivate_run hm (sealedPassphrasePath path) (.text sealLabel) w
    rw [cmdSeal_eq_of_opens hrun, hwrite]
    exact .inl ⟨rfl, _, hopening.2⟩

end

/-! ## Runs -/

/-- A vault whose sealed file is the label unseals to what is in the slot. -/
theorem autoUnseal_label [JsonText] {host : Host} {path : Path} {passphrase : Str}
    (hlabel : host.disk.fs (sealedPassphrasePath path) = some (.text sealLabel))
    (hslot : host.keyring (serviceName, sealLabel) = some (hexEncode (Str.utf8 passphrase))) :
    autoUnseal host path = .ok passphrase := by
  rw [autoUnseal, hlabel]
  dsimp only [Contents.bytes]
  simp only [osKeyringUnseal_eq hslot, result_ok_bind, Str.fromUtf8_utf8]

namespace Sealing

variable {s : Sealing} {c : SealCommand}

/-- The sealed vaults have the label for a file. -/
def Labelled (s : Sealing) : Prop :=
  ∀ path passphrase, s.own path = some passphrase →
    s.host.disk.fs (sealedPassphrasePath path) = some (.text sealLabel)

/-- The slot has the passphrase of every sealed vault. -/
def Shared (s : Sealing) : Prop :=
  ∀ path passphrase, s.own path = some passphrase →
    s.host.keyring (serviceName, sealLabel) = some (hexEncode (Str.utf8 passphrase))

theorem Labelled.unseals [JsonText] (hlabel : s.Labelled) (h : s.Shared) : s.Unseals :=
  fun path passphrase hown =>
    autoUnseal_label (hlabel path passphrase hown) (h path passphrase hown)

theorem step_host : (s.step c).host = (cmdSeal c.machine c.path c.passphrase s.host).2 := by
  rw [step]
  rcases cmdSeal c.machine c.path c.passphrase s.host with ⟨_ | _, host⟩ <;> rfl

/-- The vaults that are sealed after a step: the one that the step seals, and
those that were. -/
theorem step_own {path : Path} {passphrase : Str} (h : (s.step c).own path = some passphrase) :
    ((cmdSeal c.machine c.path c.passphrase s.host).1 = .ok () ∧ path = c.path ∧
        passphrase = c.passphrase) ∨
      (((cmdSeal c.machine c.path c.passphrase s.host).1 ≠ .ok () ∨ path ≠ c.path) ∧
        s.own path = some passphrase) := by
  rw [step] at h
  rcases hseal : cmdSeal c.machine c.path c.passphrase s.host with ⟨_ | _, host⟩
  · rw [hseal] at h
    exact .inr ⟨.inl nofun, h⟩
  · rw [hseal] at h
    dsimp only at h
    by_cases hpath : path = c.path
    · rw [hpath, Function.update_self] at h
      cases h
      exact .inl ⟨rfl, hpath, rfl⟩
    · rw [Function.update_of_ne hpath] at h
      exact .inr ⟨.inr hpath, h⟩

theorem step_own_of_ne {path : Path} (h : path ≠ c.path) : (s.step c).own path = s.own path := by
  rw [step]
  rcases cmdSeal c.machine c.path c.passphrase s.host with ⟨_ | _, host⟩
  · rfl
  · exact Function.update_of_ne h _ _

theorem Apart.seen (h : s.Apart c) :
    c.machine.Faultless ∨ c.path.name ≠ "vault-passphrase.sealed".toList :=
  h.imp And.left And.left

theorem Labelled.step (hlabel : s.Labelled)
    (hc : c.machine.Faultless ∨ c.path.name ≠ "vault-passphrase.sealed".toList) :
    (s.step c).Labelled := by
  intro path passphrase hown
  rw [step_host]
  obtain ⟨hok, rfl, -⟩ | ⟨-, hown⟩ := step_own hown
  · exact cmdSeal_writes_label hok
  · exact cmdSeal_keeps_label (hlabel path passphrase hown) hc

theorem Shared.step (h : s.Shared) (hc : s.Apart c) : (s.step c).Shared := by
  intro path passphrase hown
  rw [step_host]
  obtain ⟨hok, -, rfl⟩ | ⟨hother, hown⟩ := step_own hown
  · obtain ⟨hfail, -⟩ | hslot := cmdSeal_keyring
    · exact absurd hok hfail
    · exact hslot
  · obtain ⟨hm, hsame⟩ | ⟨-, hsame⟩ := hc
    · obtain ⟨hok, hopens⟩ | ⟨-, hkeyring, -⟩ := cmdSeal_opens hm
      · have hpath : path ≠ c.path := hother.resolve_left fun hfail => hfail hok
        rw [hsame hopens path passphrase hpath hown]
        obtain ⟨hfail, -⟩ | hslot := cmdSeal_keyring
        · exact absurd hok hfail
        · exact hslot
      · rw [hkeyring]
        exact h path passphrase hown
    · rw [hsame path passphrase hown]
      obtain ⟨-, hkeyring⟩ | hslot := cmdSeal_keyring
      · rw [hkeyring, ← hsame path passphrase hown]
        exact h path passphrase hown
      · exact hslot

/-- When the other vaults still unseal after a seal, none has lost its passphrase. -/
theorem apart_of_unseals [JsonText] (hm : c.machine.Faultless) (hlabel : (s.step c).Labelled)
    (h : (s.step c).Unseals) : s.Apart c := by
  refine .inl ⟨hm, fun ⟨body, hbody⟩ path passphrase hpath hown => ?_⟩
  rw [← step_own_of_ne hpath] at hown
  have hslot : (s.step c).host.keyring (serviceName, sealLabel) =
      some (hexEncode (Str.utf8 c.passphrase)) := by
    rw [step_host]
    obtain ⟨hok, -⟩ | ⟨-, -, hnone⟩ := @cmdSeal_opens c.machine c.path c.passphrase s.host hm
    · obtain ⟨hfail, -⟩ | hslot := cmdSeal_keyring
      · exact absurd hok hfail
      · exact hslot
    · exact absurd hbody (hnone body)
  have hunseal := h path passphrase hown
  rw [autoUnseal_label (hlabel path passphrase hown) hslot] at hunseal
  exact (Except.ok.inj hunseal).symm

theorem AllApart.shared {commands : List SealCommand} (hlabel : s.Labelled) (hs : s.Shared)
    (h : s.AllApart commands) : ∀ before, before <+: commands →
      (s.run before).Labelled ∧ (s.run before).Shared := by
  induction commands generalizing s with
  | nil =>
    intro before hbefore
    rw [List.prefix_nil.mp hbefore]
    exact ⟨hlabel, hs⟩
  | cons c commands ih =>
    intro before hbefore
    obtain rfl | ⟨rest, rfl, hrest⟩ := List.prefix_cons_iff.mp hbefore
    · exact ⟨hlabel, hs⟩
    · exact ih (hlabel.step h.1.seen) (hs.step h.1) h.2 rest hrest

theorem allApart_of_unseals [JsonText] {commands : List SealCommand} (hlabel : s.Labelled)
    (hm : ∀ c ∈ commands, c.machine.Faultless)
    (h : ∀ before, before <+: commands → (s.run before).Unseals) : s.AllApart commands := by
  induction commands generalizing s with
  | nil => trivial
  | cons c commands ih =>
    have hc : c.machine.Faultless := hm c List.mem_cons_self
    have hlabel' : (s.step c).Labelled := hlabel.step (.inl hc)
    refine ⟨apart_of_unseals hc hlabel' ?_, ih hlabel' (fun c' hc' => hm c' (.tail _ hc'))
      fun before hbefore => ?_⟩
    · exact h [c] ⟨commands, rfl⟩
    · exact h (c :: before) ((List.prefix_cons_inj c).mpr hbefore)

/-- A run of seals that are all apart leaves every vault its passphrase in
every state, and without faults no other run does. -/
theorem unseals_iff_apart [JsonText] (host : Host) (commands : List SealCommand) :
    ((start host).AllApart commands →
      ∀ before, before <+: commands → ((start host).run before).Unseals) ∧
    ((∀ c ∈ commands, c.machine.Faultless) →
      (∀ before, before <+: commands → ((start host).run before).Unseals) →
        (start host).AllApart commands) := by
  have hlabel : (start host).Labelled := nofun
  have hshared : (start host).Shared := nofun
  refine ⟨fun h before hbefore => ?_, fun hm h => allApart_of_unseals hlabel hm h⟩
  obtain ⟨hlabel, hshared⟩ := h.shared hlabel hshared before hbefore
  exact hlabel.unseals hshared

end Sealing

/-- A second vault in another directory is sealed, and the first unseals to
its passphrase. -/
theorem sealing_second_vault :
    ¬∀ (json : JsonText) (host : Host) (commands : List SealCommand),
      @Sealing.Unseals json ((Sealing.start host).run commands) := by
  intro h
  have hunseals := h noJsonText ⟨blankDisk, fun _ => none⟩
    [⟨.quiet, ⟨"d".toList, "vault.json".toList⟩, "one".toList⟩,
      ⟨.quiet, ⟨"e".toList, "vault.json".toList⟩, "two".toList⟩]
    ⟨"d".toList, "vault.json".toList⟩ "one".toList (by decide)
  revert hunseals
  decide

end HearthVault
