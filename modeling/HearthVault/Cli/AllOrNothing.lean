/-
HearthVault.Cli.AllOrNothing — whether a command that fails has stored
nothing, and one that succeeds has stored what it was given last.

The commands save before they verify, and verify every pair that they stored.
So they are all or nothing where each of these pairs is the last one that was
supplied for its key (`LastWins`), and nowhere else: two values for one key
are an error that comes after the first entries are overwritten.

The four commands differ in what they take to be supplied and reported, and
not in the argument. So `allOrNothing_iff` is about any program with the ends
of `Ends` that is known to reach its save: where the last value does not win,
the run that saves either reports a key with another value or fails with the
entries changed. What is left for each command is which pairs it supplies.
-/
import HearthVault.Cli.AdoptRuns
import HearthVault.Cli.TierTheorems

namespace HearthVault

open Files Symbolic Calendar Bindings

/-! ## All or nothing -/

/-- What a command is to store: of the pairs supplied, given the entries before,
the bindings. -/
abbrev StoringTask :=
  Machine → List (Str × Str) → VaultBody → List (Str × Str × UInt8) → Prop

/-- If the command fails the entries of the vault file are what they were, and
if it succeeds every key that it reports holds the last value supplied for
it. -/
def AllOrNothing {α : Type} (path : Path) (w : Disk) (task : StoringTask)
    (reported : α → List (Str × Str × UInt8) → List Str) (x : Prog α) : Prop :=
  ∀ m, m.Faultless → match x.run m w with
    | (.error _, w') => SameEntries path w w'
    | (.ok a, w') => ∀ supplied body items, task m supplied body items →
      ∀ body', Entries (w'.fs path) body' →
        ∀ key ∈ reported a items, body'.value? key = last supplied key

/-- Whatever is stored is the last pair supplied for its key. -/
def LastWins (supplied : List (Str × Str)) (items : List (Str × Str × UInt8)) : Prop :=
  ∀ i ∈ items, last supplied i.1 = some i.2.1

theorem LastWins.agree {supplied : List (Str × Str)} {items : List (Str × Str × UInt8)}
    (h : LastWins supplied items) : Agree (keyValues items) := by
  intro b hb b' hb' hkey
  obtain ⟨i, hi, rfl⟩ := List.mem_map.mp hb
  obtain ⟨j, hj, rfl⟩ := List.mem_map.mp hb'
  have hlast := h i hi
  rw [show i.1 = j.1 from hkey, h j hj] at hlast
  exact (Option.some.inj hlast).symm

section

variable {α : Type} {path : Path} {w : Disk} {task : StoringTask}
  {reported : α → List (Str × Str × UInt8) → List Str} {x : Prog α}

/-- The task of a run is one. -/
def StoringTask.Unique (task : StoringTask) : Prop :=
  ∀ m supplied supplied' body body' items items', task m supplied body items →
    task m supplied' body' items' → supplied = supplied' ∧ items = items'

/-- What the command has to store it does save, at some time. -/
def StoringTask.Reached (task : StoringTask) (path : Path) (w : Disk) (x : Prog α) : Prop :=
  ∀ m supplied body items, m.Faultless → task m supplied body items → items ≠ [] →
    ∃ m', m'.Faultless ∧ task m' supplied body items ∧ Commits path w body items (x.run m' w).2

/-- A storing command is all or nothing where the last value wins. -/
theorem allOrNothing_iff (hunique : task.Unique) (hreached : task.Reached path w x)
    (hends : ∀ m, m.Faultless → Ends path w
      (fun body items => ∃ supplied, task m supplied body items)
      (fun a items => reported a items = items.map Prod.fst) (x.run m w).1 (x.run m w).2) :
    AllOrNothing path w task reported x ↔
      ∀ m supplied body items, m.Faultless → task m supplied body items →
        LastWins supplied items := by
  constructor
  · intro h m supplied body items hm htask i hi
    obtain ⟨m', hm', htask', hcommits⟩ := hreached m supplied body items hm htask
      (List.ne_nil_of_mem hi)
    have hrun := h m' hm'
    have hend := hends m' hm'
    -- The run has changed the entries, so it has stored its bindings.
    rcases hresult : x.run m' w with ⟨r, w'⟩
    rw [hresult] at hrun hend hcommits
    cases hend with
    | failed hsame => exact absurd hsame hcommits.not_same
    | idle hsame => exact absurd hsame hcommits.not_same
    | unverified => exact absurd hrun hcommits.not_same
    | stored hother hsaves hagree hreported =>
      obtain ⟨supplied', hother⟩ := hother
      obtain ⟨rfl, rfl⟩ := hunique m' _ _ _ _ _ _ htask' hother
      rw [← hrun _ _ _ htask' _ hsaves.after i.1 (hreported ▸ List.mem_map_of_mem hi)]
      exact hsaves.value? hagree hi
  · intro h m hm
    have hend := hends m hm
    rcases hresult : x.run m w with ⟨r, w'⟩
    rw [hresult] at hend
    cases hend with
    | failed hsame => exact hsame
    | idle hsame hreported hnone =>
      intro supplied body items htask body' _ key hkey
      cases hnone body items ⟨supplied, htask⟩
      rw [hreported] at hkey
      cases hkey
    | unverified htask _ hdisagree =>
      obtain ⟨supplied, htask⟩ := htask
      exact absurd (h m supplied _ _ hm htask).agree hdisagree
    | stored htask hsaves hagree hreported =>
      obtain ⟨supplied, htask⟩ := htask
      intro supplied' body'' items' htask' body' hafter key hkey
      obtain ⟨rfl, rfl⟩ := hunique m _ _ _ _ _ _ htask htask'
      cases hafter.unique hsaves.after
      rw [hreported] at hkey
      obtain ⟨i, hi, rfl⟩ := List.mem_map.mp hkey
      rw [hsaves.value? hagree hi, h m supplied _ _ hm htask i hi]

end

/-! ## The four commands -/

/-- The keys of the bindings that are stored. -/
def storedKeys {α : Type} (_ : α) (items : List (Str × Str × UInt8)) : List Str :=
  items.map Prod.fst

/-- `set` is supplied what is typed for each key. -/
def setTask [Chrono] (path : Path) (w : Disk) (unlock : Unlock) (keys : List (Str × Str))
    (tier : Option UInt8) (expires : Option Str) : StoringTask :=
  fun _ supplied body items => supplied = keys ∧ SetTask path w unlock keys tier expires body items

/-- The assignments of a dotenv file, under the keys they are stored at. -/
def importSupplied (pre : Option Str) (text : Str) : List (Str × Str) :=
  (parseDotenv text).map fun p => (pre.getD [] ++ p.1, p.2)

/-- `import-env` is supplied the assignments of the file. -/
def importEnvTask [JsonText] (path : Path) (w : Disk) (unlock : Unlock) (file : FileArg)
    (pre : Option Str) (tier : UInt8) (force : Bool) : StoringTask :=
  fun _ supplied body items => ∃ text, supplied = importSupplied pre text ∧
    ImportEnvTask path w unlock file pre tier force text body items

/-- The assignments on the lines of findings, under the keys suggested. -/
def fileSupplied (pre : Str) (lines : List Str) (findings : List Finding) : List (Str × Str) :=
  findings.filterMap fun f => (f.assignment lines).map fun p => (pre ++ f.suggestedKey, p.2)

def adoptSupplied [JsonText] (pre : Str) (fs : Path → Option Contents)
    (files : List (Path × List Finding)) : List (Str × Str) :=
  files.flatMap fun file => match fileText fs file.1 with
    | some text => fileSupplied pre (Str.lines text) file.2
    | none => []

/-- `adopt_findings` is supplied the assignments on the lines of the findings. -/
def adoptTask [JsonText] (path : Path) (w : Disk) (unlock : Unlock) (findings : List Finding)
    (pre : Str) (force : Bool) : StoringTask :=
  fun _ supplied body items =>
    supplied = adoptSupplied pre w.fs (findingsByFile (envFindings [] findings)) ∧
      AdoptTask path w unlock findings pre force body items

/-- The entries of a bundle, under the keys they are received at. -/
def receiveSupplied (pre : Option Str) (payload : Payload) : List (Str × Str) :=
  payload.entries.map fun e => (receivedName pre e.key, e.value)

/-- `receive` is supplied the entries of the bundle. -/
def receiveTask (path : Path) (w : Disk) (unlock : Unlock) (file : Path) (dryRun : Bool)
    (pre : Option Str) (force : Bool) : StoringTask :=
  fun m supplied body items => dryRun = false ∧ ∃ payload, supplied = receiveSupplied pre payload ∧
    ReceiveTask path m w unlock file pre force payload body items

section

variable {path : Path} {w : Disk} {unlock : Unlock} {force : Bool}

theorem setTask_unique [Chrono] {keys : List (Str × Str)} {tier : Option UInt8}
    {expires : Option Str} : (setTask path w unlock keys tier expires).Unique := by
  rintro m _ _ body body' items items' ⟨rfl, h⟩ ⟨rfl, h'⟩
  have hbody : body = body' := h.opens.entries.unique h'.opens.entries
  exact ⟨rfl, by rw [h.stored, h'.stored, hbody]⟩

theorem importEnvTask_unique [JsonText] {file : FileArg} {pre : Option Str} {tier : UInt8} :
    (importEnvTask path w unlock file pre tier force).Unique := by
  rintro m _ _ body body' items items' ⟨text, rfl, h⟩ ⟨text', rfl, h'⟩
  obtain ⟨c, hfile, htext⟩ := h.file
  obtain ⟨c', hfile', htext'⟩ := h'.file
  rw [hfile] at hfile'
  cases hfile'
  rw [htext] at htext'
  cases htext'
  have hbody : body = body' := h.opens.entries.unique h'.opens.entries
  exact ⟨rfl, by rw [h.stored, h'.stored, hbody]⟩

theorem adoptTask_unique [JsonText] {findings : List Finding} {pre : Str} :
    (adoptTask path w unlock findings pre force).Unique := by
  rintro m _ _ body body' items items' ⟨rfl, h⟩ ⟨rfl, h'⟩
  have hbody : body = body' := h.opens.entries.unique h'.opens.entries
  exact ⟨rfl, by rw [h.stored, h'.stored, hbody]⟩

theorem receiveTask_unique {file : Path} {dryRun : Bool} {pre : Option Str} :
    (receiveTask path w unlock file dryRun pre force).Unique := by
  rintro m _ _ body body' items items' ⟨-, payload, rfl, h⟩ ⟨-, payload', rfl, h'⟩
  obtain ⟨rfl, -, hitems⟩ := h.unique h'
  exact ⟨rfl, hitems⟩

theorem cmdSet_allOrNothing [Chrono] {keys : List (Str × Str)} {tier : Option UInt8}
    {days : Option UInt32} {expires : Option Str} :
    AllOrNothing path w (setTask path w unlock keys tier expires) storedKeys
        (cmdSet path unlock keys tier days expires) ↔
      ∀ body items, SetTask path w unlock keys tier expires body items → LastWins keys items := by
  have hreached : (setTask path w unlock keys tier expires).Reached path w
      (cmdSet path unlock keys tier days expires) := by
    rintro m supplied body items - ⟨rfl, htask⟩ hitems
    obtain ⟨m', hm', hcommits⟩ := cmdSet_reaches htask hitems
    exact ⟨m', hm', ⟨rfl, htask⟩, hcommits⟩
  rw [allOrNothing_iff setTask_unique hreached fun m hm => ?_]
  · constructor
    · exact fun h body items htask => h .quiet keys body items Machine.quiet_faultless ⟨rfl, htask⟩
    · rintro h m supplied body items - ⟨rfl, htask⟩
      exact h body items htask
  · refine ((cmdSet_ends hm).congr fun body items => ?_).listing fun _ _ _ => rfl
    exact ⟨fun htask => ⟨keys, rfl, htask⟩, fun ⟨_, _, htask⟩ => htask⟩

theorem cmdImportEnv_allOrNothing [JsonText] {file : FileArg} {pre : Option Str} {tier : UInt8}
    {keep : Bool} (hapart : ImportApart path file keep) :
    AllOrNothing path w (importEnvTask path w unlock file pre tier force) storedKeys
        (cmdImportEnv path unlock file pre tier keep force) ↔
      ∀ text body items, ImportEnvTask path w unlock file pre tier force text body items →
        LastWins (importSupplied pre text) items := by
  have hreached : (importEnvTask path w unlock file pre tier force).Reached path w
      (cmdImportEnv path unlock file pre tier keep force) := by
    rintro m supplied body items - ⟨text, rfl, htask⟩ hitems
    obtain ⟨m', hm', hcommits⟩ := cmdImportEnv_reaches hapart htask hitems
    exact ⟨m', hm', ⟨text, rfl, htask⟩, hcommits⟩
  rw [allOrNothing_iff importEnvTask_unique hreached fun m hm => ?_]
  · constructor
    · exact fun h text body items htask =>
        h .quiet _ body items Machine.quiet_faultless ⟨text, rfl, htask⟩
    · rintro h m supplied body items - ⟨text, rfl, htask⟩
      exact h text body items htask
  · refine ((cmdImportEnv_ends hm hapart).congr fun body items => ?_).listing fun _ _ _ => rfl
    exact ⟨fun ⟨text, htask⟩ => ⟨_, text, rfl, htask⟩, fun ⟨_, text, _, htask⟩ => ⟨text, htask⟩⟩

theorem adoptFindings_allOrNothing [JsonText] {findings : List Finding} {pre : Str}
    (hapart : FindingsApart path findings) :
    AllOrNothing path w (adoptTask path w unlock findings pre force)
        (fun outcome _ => outcome.adopted) (adoptFindings path unlock findings pre force) ↔
      ∀ body items, AdoptTask path w unlock findings pre force body items →
        LastWins (adoptSupplied pre w.fs (findingsByFile (envFindings [] findings))) items := by
  have hreached : (adoptTask path w unlock findings pre force).Reached path w
      (adoptFindings path unlock findings pre force) := by
    rintro m supplied body items - ⟨rfl, htask⟩ hitems
    obtain ⟨m', hm', hcommits⟩ := adoptFindings_reaches hapart htask hitems
    exact ⟨m', hm', ⟨rfl, htask⟩, hcommits⟩
  rw [allOrNothing_iff adoptTask_unique hreached fun m hm => ?_]
  · constructor
    · exact fun h body items htask => h .quiet _ body items Machine.quiet_faultless ⟨rfl, htask⟩
    · rintro h m supplied body items - ⟨rfl, htask⟩
      exact h body items htask
  · refine (adoptFindings_ends hm hapart).congr fun body items => ?_
    exact ⟨fun htask => ⟨_, rfl, htask⟩, fun ⟨_, _, htask⟩ => htask⟩

theorem cmdReceive_allOrNothing {file : Path} {dryRun : Bool} {pre : Option Str} :
    AllOrNothing path w (receiveTask path w unlock file dryRun pre force) storedKeys
        (cmdReceive path unlock file dryRun pre force) ↔
      (dryRun = false → ∀ m payload body items, m.Faultless →
        ReceiveTask path m w unlock file pre force payload body items →
          LastWins (receiveSupplied pre payload) items) := by
  have hreached : (receiveTask path w unlock file dryRun pre force).Reached path w
      (cmdReceive path unlock file dryRun pre force) := by
    rintro m supplied body items hm ⟨rfl, payload, rfl, htask⟩ hitems
    obtain ⟨clock, hcommits⟩ := cmdReceive_reaches hm htask hitems
    exact ⟨{ m with clock }, hm, ⟨rfl, payload, rfl, htask.at_clock clock⟩, hcommits⟩
  rw [allOrNothing_iff receiveTask_unique hreached fun m hm => ?_]
  · constructor
    · exact fun h hdry m payload body items hm htask =>
        h m _ body items hm ⟨hdry, payload, rfl, htask⟩
    · rintro h m supplied body items hm ⟨hdry, payload, rfl, htask⟩
      exact h hdry m payload body items hm htask
  · refine ((cmdReceive_ends hm).congr fun body items => ?_).listing fun _ _ _ => rfl
    exact ⟨fun ⟨hdry, payload, htask⟩ => ⟨_, hdry, payload, rfl, htask⟩,
      fun ⟨_, hdry, payload, _, htask⟩ => ⟨hdry, payload, htask⟩⟩

/-- The storing commands are all or nothing where every pair that is stored is
the last one supplied for its key. -/
theorem storing_allOrNothing [Chrono] [JsonText] (path : Path) (w : Disk) (unlock : Unlock) :
    (∀ keys tier days expires,
      AllOrNothing path w (setTask path w unlock keys tier expires) storedKeys
          (cmdSet path unlock keys tier days expires) ↔
        ∀ body items, SetTask path w unlock keys tier expires body items → LastWins keys items) ∧
    (∀ file pre tier keep force, ImportApart path file keep →
      (AllOrNothing path w (importEnvTask path w unlock file pre tier force) storedKeys
          (cmdImportEnv path unlock file pre tier keep force) ↔
        ∀ text body items, ImportEnvTask path w unlock file pre tier force text body items →
          LastWins (importSupplied pre text) items)) ∧
    (∀ findings pre force, FindingsApart path findings →
      (AllOrNothing path w (adoptTask path w unlock findings pre force)
          (fun outcome _ => outcome.adopted) (adoptFindings path unlock findings pre force) ↔
        ∀ body items, AdoptTask path w unlock findings pre force body items →
          LastWins (adoptSupplied pre w.fs (findingsByFile (envFindings [] findings))) items)) ∧
    ∀ file dryRun pre force,
      AllOrNothing path w (receiveTask path w unlock file dryRun pre force) storedKeys
          (cmdReceive path unlock file dryRun pre force) ↔
        (dryRun = false → ∀ m payload body items, m.Faultless →
          ReceiveTask path m w unlock file pre force payload body items →
            LastWins (receiveSupplied pre payload) items) :=
  ⟨fun _ _ _ _ => cmdSet_allOrNothing, fun _ _ _ _ _ => cmdImportEnv_allOrNothing,
    fun _ _ _ => adoptFindings_allOrNothing, fun _ _ _ _ => cmdReceive_allOrNothing⟩

end

/-- A file `.env` with two values for a key that there is, which are passed
over, and a new key twice. -/
theorem storing_allOrNothing_env :
    letI := noJsonText
    letI := noDates
    AllOrNothing vaultJson (vaultDisk twoTiers "A=7\nC=1\nC=1\nD=2\nA=8".toList)
      (importEnvTask vaultJson (vaultDisk twoTiers "A=7\nC=1\nC=1\nD=2\nA=8".toList) pwUnlock
        envArg none tierUseOnly false)
      storedKeys (cmdImportEnv vaultJson pwUnlock envArg none tierUseOnly false false) := by
  let _ := noJsonText
  let _ := noDates
  refine ((storing_allOrNothing vaultJson (vaultDisk twoTiers
    "A=7\nC=1\nC=1\nD=2\nA=8".toList) pwUnlock).2.1 envArg none tierUseOnly false false
    envArg_apart).mpr fun text body items htask => ?_
  obtain ⟨rfl, rfl, rfl⟩ := htask.of_vaultDisk
  have hstored : ∀ i ∈ taken false twoTiers.view (importItems ((none : Option Str).getD [])
      tierUseOnly (parseDotenv "A=7\nC=1\nC=1\nD=2\nA=8".toList)),
      last (importSupplied none "A=7\nC=1\nC=1\nD=2\nA=8".toList) i.1 = some i.2.1 := by decide
  exact hstored

/-- Two values typed for one key are an error, with the last of them saved. -/
theorem set_not_allOrNothing :
    ¬∀ (_ : Chrono) (path : Path) (w : Disk) (unlock : Unlock) (keys : List (Str × Str))
      (tier : Option UInt8) (days : Option UInt32) (expires : Option Str),
      AllOrNothing path w (setTask path w unlock keys tier expires) storedKeys
        (cmdSet path unlock keys tier days expires) := by
  intro h
  let _ := noDates
  have hrun :=
    h noDates vaultJson blankDisk pwUnlock [("k".toList, "1".toList), ("k".toList, "2".toList)]
    none none none .quiet Machine.quiet_faultless
  have herr : ((cmdSet vaultJson pwUnlock [("k".toList, "1".toList), ("k".toList, "2".toList)]
      none none none).run .quiet blankDisk).1.isOk = false := by decide
  have hsaved : (sealedBody (((cmdSet vaultJson pwUnlock [("k".toList, "1".toList),
      ("k".toList, "2".toList)] none none none).run .quiet blankDisk).2.fs vaultJson)).map
      (VaultBody.has · "k".toList) = some true := by decide
  rcases hresult : (cmdSet vaultJson pwUnlock [("k".toList, "1".toList), ("k".toList, "2".toList)]
      none none none).run .quiet blankDisk with ⟨r, w'⟩
  rw [hresult] at hrun herr hsaved
  cases r with
  | ok a => cases herr
  | error e =>
    have hafter := (hrun ∅).mpr rfl
    obtain ⟨body, hbody, hhas⟩ := Option.map_eq_some_iff.mp hsaved
    cases hafter.unique (entries_of_sealedBody hbody)
    simp [VaultBody.has] at hhas

end HearthVault
