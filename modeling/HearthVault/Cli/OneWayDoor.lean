/-
HearthVault.Cli.OneWayDoor — tier 4 is a one-way door.

Two vaults that differ in the values of tier 4 only are put through the same
commands. Each command is run beside itself (`Command.run_related`), so after
every turn of a session the vaults still differ in such values only, and what
`export-env`, `export-env-file`, `exec` and `share` make of them is the same
(`session_twins`).
-/
import HearthVault.Cli.SinkTheorems
import HearthVault.Cli.TwinCommands

namespace HearthVault

open Files Symbolic Calendar Elementwise

/-! ## What leaves twin vaults -/

/-- What leaves one vault leaves the other. -/
structure LeaveAlike [Unicode] (body body' : VaultBody) : Prop where
  exportEnv : ∀ key envName, HearthVault.exportEnv body key envName =
    HearthVault.exportEnv body' key envName
  exportEnvFile : ∀ pre, HearthVault.exportEnvFile body pre = HearthVault.exportEnvFile body' pre
  exec : ∀ pre, collectExecEnv body pre = collectExecEnv body' pre
  share : ∀ pre recipient maxTier note, shareBody body pre recipient maxTier note =
    shareBody body' pre recipient maxTier note

namespace VaultBody.Twins

variable {K : Set Str} {body body' : VaultBody}

theorem listed (h : body.Twins K body') :
    List.Forall₂ (fun p q => p.1 = q.1 ∧ p.2.Twins q.2) body.toList body'.toList :=
  forall₂_toList h.entries

/-- `list` shows no value. -/
theorem list_eq (h : body.Twins K body') : body.list = body'.list := by
  unfold VaultBody.list
  rw [← List.filterMap_eq_map']
  refine filterMap_eq_of_forall₂ h.listed ?_
  rintro ⟨key, e⟩ ⟨_, e'⟩ ⟨rfl, he⟩
  cases he <;> rfl

/-- The entries under a prefix, which differ in values of tier 4. -/
theorem prefixed (h : body.Twins K body') (pre : Str) :
    List.Forall₂ (fun p q => p.1 = q.1 ∧ p.2.2 = q.2.2 ∧ (p.2.2 ≠ tierSignOnly → p.2.1 = q.2.1))
      (body.entriesWithPrefix pre) (body'.entriesWithPrefix pre) := by
  unfold VaultBody.entriesWithPrefix
  rw [List.forall₂_map_left_iff, List.forall₂_map_right_iff]
  refine (List.rel_filter ?_ h.listed).imp ?_
  · rintro ⟨key, e⟩ ⟨_, e'⟩ ⟨rfl, -⟩
    exact Iff.rfl
  · rintro ⟨key, e⟩ ⟨_, e'⟩ ⟨rfl, he⟩
    exact ⟨rfl, he.tier.symm, fun htier => (he.value htier).symm⟩

/-- A test that tier 4 fails lets the same entries through. -/
theorem allowedEntries_eq (h : body.Twins K body') {allows : UInt8 → Bool}
    (hallows : allows tierSignOnly = false) (pre : Str) :
    allowedEntries allows body pre = allowedEntries allows body' pre := by
  unfold allowedEntries
  rw [← List.filterMap_eq_filter]
  refine filterMap_eq_of_forall₂ (h.prefixed pre) ?_
  rintro ⟨key, value, tier⟩ ⟨_, value', _⟩ ⟨rfl, rfl, hvalue⟩
  by_cases htier : tier = tierSignOnly
  · have hrefused : allows tier = false := htier ▸ hallows
    simp [Option.guard, hrefused]
  · obtain rfl : value = value' := hvalue htier
    rfl

theorem partitionKeys_eq (h : body.Twins K body') (allows : UInt8 → Bool) (pre : Str) :
    partitionKeys allows body pre = partitionKeys allows body' pre := by
  unfold partitionKeys
  rw [h.list_eq]

theorem exportEnv_eq (h : body.Twins K body') (key envName : Str) :
    exportEnv body key envName = exportEnv body' key envName := by
  unfold exportEnv
  rw [h.tierOf]
  dsimp only
  split
  · rfl
  · rename_i hallows
    have htier : body.tierOf key ≠ some tierSignOnly := by
      intro htier
      rw [htier] at hallows
      exact hallows (by decide)
    rw [h.value? htier]

theorem collectExportLines_eq [Unicode] (h : body.Twins K body') (pre : Str) :
    collectExportLines body pre = collectExportLines body' pre := by
  rw [HearthVault.collectExportLines_eq, HearthVault.collectExportLines_eq,
    h.allowedEntries_eq rfl, h.partitionKeys_eq]

theorem collectExecEnv_eq [Unicode] (h : body.Twins K body') (pre : Str) :
    collectExecEnv body pre = collectExecEnv body' pre := by
  rw [HearthVault.collectExecEnv_eq, HearthVault.collectExecEnv_eq, h.allowedEntries_eq rfl,
    h.partitionKeys_eq]

theorem shareBody_eq (h : body.Twins K body') (pre : Str) (recipient : Identity)
    (maxTier : Option UInt8) (note : Option Str) :
    shareBody body pre recipient maxTier note = shareBody body' pre recipient maxTier note := by
  have hshared : ∀ body : VaultBody, shareEntries (body.entriesWithPrefix pre) maxTier =
      (allowedEntries (fun tier => tier ≠ tierSignOnly) body pre).map fun e =>
        ⟨e.1, e.2.1, maxTier.elim e.2.2 (max e.2.2)⟩ := by
    intro body
    refine List.map_congr_left fun e _ => ?_
    cases maxTier with
    | none => rfl
    | some cap => rfl
  have hnil : body.entriesWithPrefix pre = [] ↔ body'.entriesWithPrefix pre = [] := by
    rw [← List.length_eq_zero_iff, (h.prefixed pre).length_eq, List.length_eq_zero_iff]
  have hallowed : allowedEntries (fun tier => tier ≠ tierSignOnly) body pre =
      allowedEntries (fun tier => tier ≠ tierSignOnly) body' pre :=
    h.allowedEntries_eq (by decide) pre
  unfold shareBody sharePayload
  simp only [hshared, hallowed, hnil]

theorem leaveAlike [Unicode] (h : body.Twins K body') : LeaveAlike body body' where
  exportEnv := h.exportEnv_eq
  exportEnvFile pre := by
    rw [HearthVault.exportEnvFile, HearthVault.exportEnvFile, h.collectExportLines_eq]
  exec := h.collectExecEnv_eq
  share := h.shareBody_eq

end VaultBody.Twins

/-! ## Twin disks -/

/-- The files that a vault and its snapshots are written to. -/
def ownFiles (path : Path) : Set Path :=
  {q | q ∈ vaultFiles path ∨ ∃ now, q ∈ privateFiles (backupTarget path now)}

/-- Disks that agree on everything except the values stored at tier 4: the
vault's own files are twins, and all others are the same. -/
abbrev TwinVaults (path : Path) : Disk → Disk → Prop :=
  TwinDisks (ownFiles path)ᶜ path none

/-- The entries of twin files. -/
theorem Contents.Twins.entries {c d : Contents} (h : c.Twins d) {body : VaultBody}
    (hbody : Entries (some c) body) : ∃ body', Entries (some d) body' ∧ body.Twins ∅ body' := by
  cases h with
  | same => exact ⟨body, hbody, .refl ∅ body⟩
  | v1 text text' h =>
    obtain ⟨passphrase, hconvert⟩ := hbody
    have hconcur := convertV1_twins h passphrase
    rw [hconvert] at hconcur
    cases hconvert' : convertV1 _ passphrase with
    | ok body' =>
      rw [hconvert'] at hconcur
      exact ⟨body', ⟨passphrase, hconvert'⟩, hconcur⟩
    | error e =>
      rw [hconvert'] at hconcur
      exact hconcur.elim
  | @v2 file file' h =>
    obtain ⟨version, kdf, wrap, vault⟩ := file
    obtain ⟨version', kdf', wrap', vault'⟩ := file'
    have hvault : SealedTwins vault vault' := h.vault
    cases hvault with
    | same => exact ⟨body, hbody, .refl ∅ body⟩
    | body key nonce aad hbodies =>
      cases hbody
      exact ⟨_, rfl, hbodies⟩

theorem TwinVaults.entries {path : Path} {w v : Disk} (h : TwinVaults path w v) {body : VaultBody}
    (hbody : Entries (w.fs path) body) :
    ∃ body', Entries (v.fs path) body' ∧ body.Twins ∅ body' := by
  have htwins := (h.fs path).twins
  generalize w.fs path = x, v.fs path = y at htwins hbody
  cases htwins with
  | none => exact ⟨body, hbody, .refl ∅ body⟩
  | some htwins => exact htwins.entries hbody

/-! ## Sessions -/

section

variable [JsonText]

/-- The files that a command reads beside the vault. -/
def Command.inputs : Command → Set Path
  | .import file _ _ => {file.path}
  | .importEnv file _ _ _ _ => {file.path, gitignore}
  | .receive file _ _ _ => {file}
  | .scanAdopt findings _ _ _ => {q | ∃ f ∈ findings, isDotenvFile f.path = true ∧ f.path = q}
  | _ => ∅

/-- **Every command keeps twin vaults twins**, whatever fails and wherever it
is killed. -/
theorem Command.run_related [Chrono] {path : Path} {m : Machine} (unlock : Unlock)
    (command : Command) (hinputs : command.inputs ⊆ (ownFiles path)ᶜ) :
    Fx.Related m (TwinVaults path) (command.run path unlock) (command.run path unlock)
      fun _ _ => True := by
  have hI : ∀ q ∈ (ownFiles path)ᶜ, q ∉ vaultFiles path := fun q hq h => hq (.inl h)
  cases command with
  | set keys tier rotateDays expires => exact cmdSet_related hI
  | «import» file key tier => exact cmdImport_related hI (hinputs rfl)
  | importEnv file pre tier keep force =>
    exact cmdImportEnv_related hI (hinputs (.inl rfl)) (hinputs (.inr rfl))
  | rename source target => exact cmdRename_related hI
  | retier key tier => exact cmdRetier_related hI
  | delete key noBackup => exact cmdDelete_related hI fun now q hq h => hq (.inr ⟨now, h⟩)
  | receive file dryRun pre force => exact cmdReceive_related hI (hinputs rfl)
  | scanAdopt findings pre force marker =>
    refine (cmdScanAdopt_related hI fun f hf hdotenv => hinputs ⟨f, hf, hdotenv, rfl⟩).bind ?_
    exact fun _ _ _ => .pure trivial

/-- A turn of a session: the files the user puts on the disk, and then a
command. -/
structure Turn extends Invocation where
  supplied : List (Path × Contents)

/-- The disk with the files of a user. -/
def supply (files : List (Path × Contents)) (w : Disk) : Disk :=
  files.foldl (fun w file => w.put file.1 file.2) w

variable [Chrono]

def Turn.run (path : Path) (turn : Turn) (w : Disk) : Result Unit × Disk :=
  (turn.command.run path turn.unlock).run turn.machine (supply turn.supplied w)

/-- The answer and the disk after every turn. -/
def session (path : Path) : List Turn → Disk → List (Result Unit × Disk)
  | [], _ => []
  | turn :: rest, w => turn.run path w :: session path rest (turn.run path w).2

omit [JsonText] [Chrono] in
theorem supply_twins {path : Path} (files : List (Path × Contents)) {w v : Disk}
    (h : TwinVaults path w v) : TwinVaults path (supply files w) (supply files v) := by
  induction files generalizing w v with
  | nil => exact h
  | cons file rest ih => exact ih (h.put (.same _))

/-- After a turn nothing tells the two vaults apart but values of tier 4. -/
structure Indistinct [Unicode] (path : Path) (r s : Result Unit × Disk) : Prop where
  answer : r.1 = s.1
  disks : TwinVaults path r.2 s.2
  entries : ∀ body, Entries (r.2.fs path) body →
    ∃ body', Entries (s.2.fs path) body' ∧ body.Twins ∅ body' ∧ LeaveAlike body body'
  opened : ∀ m unlock, Concur (fun store store' => LeaveAlike store.body store'.body)
    ((openVault path unlock).run m r.2).1 ((openVault path unlock).run m s.2).1

theorem Turn.run_twins [Unicode] {path : Path} (turn : Turn) {w v : Disk}
    (hinputs : turn.command.inputs ⊆ (ownFiles path)ᶜ) (h : TwinVaults path w v) :
    Indistinct path (turn.run path w) (turn.run path v) := by
  obtain ⟨hdisks, hanswer⟩ := Command.run_related turn.unlock turn.command hinputs _ _
    (supply_twins turn.supplied h)
  have hI : ∀ q ∈ (ownFiles path)ᶜ, q ∉ vaultFiles path := fun q hq h => hq (.inl h)
  refine ⟨?_, hdisks, fun body hbody => ?_, fun m unlock => ?_⟩
  · exact (Concur.mono hanswer fun _ _ _ => rfl).eq
  · obtain ⟨body', hbody', htwins⟩ := hdisks.entries hbody
    exact ⟨body', hbody', htwins, htwins.leaveAlike⟩
  · exact Concur.mono (openVault_related hI unlock _ _ hdisks).2 fun s t h => h.1.body.leaveAlike

/-- **Tier 4 is a one-way door**: after every turn of a session two vaults
that differed in values of tier 4 differ in nothing else, and nothing else
leaves them. -/
theorem session_twins [Unicode] {path : Path} {turns : List Turn} {w v : Disk}
    (hinputs : ∀ turn ∈ turns, turn.command.inputs ⊆ (ownFiles path)ᶜ) (h : TwinVaults path w v) :
    List.Forall₂ (Indistinct path) (session path turns w) (session path turns v) := by
  induction turns generalizing w v with
  | nil => exact .nil
  | cons turn rest ih =>
    obtain ⟨hturn, hrest⟩ := List.forall_mem_cons.mp hinputs
    have hstep := turn.run_twins hturn h
    exact .cons hstep (ih hrest hstep.disks)

end

/-! ## A session -/

theorem dir_of_mem_ownFiles {path q : Path} (h : q ∈ ownFiles path) : q.dir = path.dir := by
  obtain (rfl | rfl | ⟨pid, rfl⟩) | ⟨now, rfl | ⟨pid, rfl⟩⟩ := h
  all_goals rfl

/-- A vault with a value under `k` at tier 4. -/
def signOnlyV1 (value : Str) : VaultFileV1 :=
  let master := Key.argon2id "pw".toList (Octets.random32 0) v1Kdf
  { singleV1 4 with
    entries := (∅ : Std.ExtTreeMap Str EncryptedEntryV1 compare).insert "k".toList
      ⟨sealed (.subkey master "vault-credentials".toList) 1 [] (.utf8 value),
        tierSignOnly, [], []⟩ }

def signOnlyDisk (value : Str) : Disk :=
  World.single vaultJson (.v1 value (signOnlyV1 value)) 2

theorem signOnlyDisk_twins (value value' : Str) :
    TwinVaults vaultJson (signOnlyDisk value) (signOnlyDisk value') := by
  have hentries : (signOnlyV1 value).Twins (signOnlyV1 value') := by
    refine ⟨rfl, rfl, fun key => ?_⟩
    simp only [signOnlyV1, Std.ExtTreeMap.getElem?_insert]
    split
    · exact .some (.signOnly _ _ _ _ _ _ _)
    · simp
  have hblank : TwinVaults vaultJson { blankDisk with rng := 2 } { blankDisk with rng := 2 } :=
    ⟨fun q => .same _, rfl, rfl, rfl⟩
  exact hblank.put (.of_twins (.v1 _ _ hentries) fun h => h (.inl (.inl rfl)))

/-- The key is renamed, and is refused a lower tier; then a file gives it a
value again. -/
def renamedAndGiven : List Turn :=
  [⟨⟨.quiet, pwUnlock, .rename "k".toList "j".toList⟩, []⟩,
    ⟨⟨.quiet, pwUnlock, .retier "j".toList 2⟩, []⟩,
    ⟨⟨.quiet, pwUnlock, .importEnv envArg none 2 false true⟩,
      [(envArg.path, .text "j=c\n".toList)]⟩]

/-- Two values of a key at tier 4, which the second turn is refused to lower. -/
theorem session_twins_renamedAndGiven :
    letI := noJsonText
    letI := noDates
    letI := asciiUppercase
    ((session vaultJson renamedAndGiven (signOnlyDisk "a".toList)).map fun r => r.1.isOk) =
        [true, false, true] ∧
      List.Forall₂ (Indistinct vaultJson)
        (session vaultJson renamedAndGiven (signOnlyDisk "a".toList))
        (session vaultJson renamedAndGiven (signOnlyDisk "b".toList)) := by
  let _ := noJsonText
  let _ := noDates
  let _ := asciiUppercase
  refine ⟨by decide, session_twins (fun turn hturn q hq hown => ?_)
    (signOnlyDisk_twins "a".toList "b".toList)⟩
  have hdir := dir_of_mem_ownFiles hown
  simp only [renamedAndGiven, List.mem_cons, List.not_mem_nil, or_false] at hturn
  obtain rfl | rfl | rfl := hturn
  · exact hq
  · exact hq
  · obtain rfl | rfl := hq
    all_goals exact absurd hdir (by decide)

end HearthVault
