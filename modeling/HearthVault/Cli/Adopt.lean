/-
HearthVault.Cli.Adopt — `scan --adopt`, and the commands as one type.

`adoptFindings` moves the values of dotenv findings into the vault, file by
file, and rewrites the files once the vault is saved and verified. `Command`
lists the mutating commands with their inputs and `Command.run` is the
program of each; a `Session` is a sequence of them.
-/
import HearthVault.Cli.Commands

namespace HearthVault

open Files Symbolic Calendar

/-! ## Findings -/

/-- What `adopt_findings` uses of a `Finding`. -/
structure Finding where
  path : Path
  lineNumber : Nat
  suggestedKey : Str
  deriving DecidableEq, Repr

/-- `is_dotenv_file`. -/
def isDotenvFile (path : Path) : Bool :=
  path.name == ".env".toList || ".env.".toList.isPrefixOf path.name ||
    ".env".toList.isSuffixOf path.name

/-- The order of paths is that of their components. -/
def pathComponents (path : Path) : List Str :=
  Str.split '/' path.dir ++ [path.name]

/-- The findings of dotenv files, one a line. -/
def envFindings : List (Path × Nat) → List Finding → List Finding
  | _, [] => []
  | seen, f :: rest =>
    if !isDotenvFile f.path ∨ (f.path, f.lineNumber) ∈ seen then envFindings seen rest
    else f :: envFindings ((f.path, f.lineNumber) :: seen) rest

/-- The components of paths are ordered. -/
instance componentsOrd : Std.TransOrd (List Str) := inferInstance

/-- The findings by file, files in order. -/
def findingsByFile (findings : List Finding) : List (Path × List Finding) :=
  let files := findings.foldl
    (fun (files : Std.ExtTreeMap (List Str) (Path × List Finding) compare) f =>
      files.alter (pathComponents f.path) fun
        | some (path, fs) => some (path, fs ++ [f])
        | none => some (f.path, [f]))
    ∅
  files.toList.map Prod.snd

/-! ## Adopting -/

/-- `AdoptOutcome`. -/
structure AdoptOutcome where
  adopted : List Str
  skippedExisting : List Str
  skippedSource : List Finding
  errors : List Str
  deriving DecidableEq, Repr

/-- The state of the loop over one file. -/
structure AdoptState where
  store : VaultStore
  lines : List Str
  changed : Bool
  storedPairs : List (Str × Str)
  adopted : List Str
  skippedExisting : List Str
  errors : List Str

/-- An error of the loop, with the line it is about. -/
def AdoptState.error (state : AdoptState) (f : Finding) (what : String) : AdoptState :=
  { state with
    errors := state.errors ++
      [f.path.display ++ ':' :: Nat.toDigits 10 f.lineNumber ++ ": ".toList ++ what.toList] }

/-- One finding. -/
def adoptFinding (pre : Str) (force : Bool) (f : Finding) (state : AdoptState) :
    Prog AdoptState := do
  let idx := f.lineNumber - 1
  match state.lines[idx]? with
  | none => pure (state.error f "line vanished before adopt")
  | some line =>
    match (parseDotenv line).head? with
    | none => pure (state.error f "could not parse KEY=value")
    | some (varName, value) =>
      if value = [] then pure (state.error f "empty value, skipped")
      else
        let fullKey := pre ++ f.suggestedKey
        if state.store.body.has fullKey ∧ !force then
          pure { state with skippedExisting := state.skippedExisting ++ [fullKey] }
        else
          let store ← state.store.set fullKey value tierUseOnly
          pure { state with
            store
            storedPairs := state.storedPairs ++ [(fullKey, value)]
            adopted := state.adopted ++ [fullKey]
            lines := state.lines.set idx ("# ".toList ++ varName ++ " -> hearth-vault: ".toList ++
              fullKey ++ " (value removed)".toList)
            changed := true }

/-- The findings of one file, in order. -/
def adoptInFile (pre : Str) (force : Bool) : List Finding → AdoptState → Prog AdoptState
  | [], state => pure state
  | f :: rest, state => do
    let state ← adoptFinding pre force f state
    adoptInFile pre force rest state

section

variable [JsonText]

/-- The loop over the files, and the rewrites it defers. -/
def adoptFiles (pre : Str) (force : Bool) : List (Path × List Finding) → AdoptState →
    Prog (AdoptState × List (Path × Str))
  | [], state => pure (state, [])
  | (path, findings) :: rest, state => do
    match ← Fx.attempt (readText path) with
    | .error _ =>
      adoptFiles pre force rest
        { state with
          errors := state.errors ++ [path.display ++ ": could not read file".toList] }
    | .ok content => do
      let state ← adoptInFile pre force findings
        { state with lines := Str.lines content, changed := false }
      let write :=
        if state.changed then [(path, Str.join "\n".toList state.lines ++ ['\n'])] else []
      let (state, writes) ← adoptFiles pre force rest state
      pure (state, write ++ writes)

/-- The deferred rewrites. -/
def rewriteFiles : List (Path × Str) → Prog Unit
  | [] => pure ()
  | (path, content) :: rest => do
    Fx.write path (.text content)
    rewriteFiles rest

/-- `adopt_findings`. -/
def adoptFindings (path : Path) (unlock : Unlock) (findings : List Finding) (pre : Str)
    (force : Bool) : Prog AdoptOutcome := do
  let skippedSource := findings.filter fun f => !isDotenvFile f.path
  let env := envFindings [] findings
  if env = [] then pure ⟨[], [], skippedSource, []⟩
  else
    let store ← openVault path unlock
    let store ← store.lockAndRefresh
    let (state, writes) ← adoptFiles pre force (findingsByFile env)
      ⟨store, [], false, [], [], [], []⟩
    let store ← state.store.save
    store.verifyPersisted state.storedPairs
    rewriteFiles writes
    pure ⟨state.adopted, state.skippedExisting, skippedSource, state.errors⟩

/-- `write_project_marker`, where a prefix is given. -/
def writeProjectMarker (marker : Path) (pre : Option Str) : Prog Unit :=
  match pre with
  | some p => Fx.write marker (.text (p ++ ['\n']))
  | none => pure ()

/-- `cmd_scan --adopt`, of what the scan found; `marker` is the
`.hearth-vault` file of the project. -/
def cmdScanAdopt (path : Path) (unlock : Unlock) (findings : List Finding) (pre : Option Str)
    (force : Bool) (marker : Path) : Prog AdoptOutcome := do
  let outcome ← adoptFindings path unlock findings (pre.getD []) force
  writeProjectMarker marker pre
  pure outcome

/-! ## Commands -/

/-- The mutating commands, with their inputs. -/
inductive Command where
  | set (keys : List (Str × Str)) (tier : Option UInt8) (rotateDays : Option UInt32)
      (expires : Option Str)
  | import (file : FileArg) (key : Str) (tier : UInt8)
  | importEnv (file : FileArg) (pre : Option Str) (tier : UInt8) (keep force : Bool)
  | rename (source target : Str)
  | retier (key : Str) (tier : UInt8)
  | delete (key : Str) (noBackup : Bool)
  | receive (file : Path) (dryRun : Bool) (pre : Option Str) (force : Bool)
  | scanAdopt (findings : List Finding) (pre : Option Str) (force : Bool) (marker : Path)

/-- The program of a command. -/
def Command.run [Chrono] (path : Path) (unlock : Unlock) : Command → Prog Unit
  | .set keys tier rotateDays expires => cmdSet path unlock keys tier rotateDays expires
  | .import file key tier => cmdImport path unlock file key tier
  | .importEnv file pre tier keep force => cmdImportEnv path unlock file pre tier keep force
  | .rename source target => cmdRename path unlock source target
  | .retier key tier => cmdRetier path unlock key tier
  | .delete key noBackup => cmdDelete path unlock key noBackup
  | .receive file dryRun pre force => cmdReceive path unlock file dryRun pre force
  | .scanAdopt findings pre force marker => do
    let _ ← cmdScanAdopt path unlock findings pre force marker

end

end HearthVault
