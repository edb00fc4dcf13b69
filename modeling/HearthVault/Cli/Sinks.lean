/-
HearthVault.Cli.Sinks — the four ways a value leaves an open vault:
`export-env`, `export-env-file`, the environment of `exec`, and the payload
of `share`. Each is a function of the vault body and makes its own tier
test: below 3 to be printed, below 4 to be injected, other than 4 to be
shared.
-/
import HearthVault.Share.Bundle

namespace HearthVault

open Files

/-- `str::to_uppercase`, by the Unicode tables. -/
class Unicode where
  toUppercase : Str → Str

/-- `tier_allows_export`. -/
def tierAllowsExport (tier : UInt8) : Bool :=
  tier < tierUseOnly

/-- `tier_allows_exec_injection`. -/
def tierAllowsExecInjection (tier : UInt8) : Bool :=
  tier < tierSignOnly

/-- `env_name_for`. -/
def envNameFor [Unicode] (key pre : Str) : Str :=
  (Unicode.toUppercase ((Str.stripPrefix pre key).getD key)).map fun c =>
    if c = '/' ∨ c = '-' then '_' else c

/-- `shell_escape`. -/
def shellEscape (s : Str) : Str :=
  "'".toList ++ Str.replace "'".toList "'\\''".toList s ++ "'".toList

/-- `ExportLine`. -/
structure ExportLine where
  envName : Str
  key : Str
  line : Str
  deriving DecidableEq, Repr

/-- The keys under a prefix, and whether each passes the tier test. -/
def partitionKeys (allows : UInt8 → Bool) (body : VaultBody) (pre : Str) :
    List VaultEntry × List Str :=
  let matching := body.list.filter fun e => pre.isPrefixOf e.key
  (matching.filter fun e => allows e.tier,
    (matching.filter fun e => !allows e.tier).map VaultEntry.key)

/-- `store.get(..)` of a listed key. -/
def listedValue (body : VaultBody) (key : Str) (occasion : String) : Result Str :=
  match body.value? key with
  | some value => .ok value
  | none => bail s!"key disappeared during {occasion}: {String.ofList key}"

/-- `collect_export_lines`. -/
def collectExportLines [Unicode] (body : VaultBody) (pre : Str) :
    Result (List ExportLine × List Str) := do
  let (printable, skipped) := partitionKeys tierAllowsExport body pre
  let lines ← printable.mapM fun e => do
    let value ← listedValue body e.key "export"
    let envName := envNameFor e.key pre
    .ok { envName, key := e.key, line := envName ++ '=' :: value }
  .ok (lines, skipped)

/-- `collect_exec_env`. -/
def collectExecEnv [Unicode] (body : VaultBody) (pre : Str) :
    Result (List (Str × Str) × List Str) := do
  let (injectable, skipped) := partitionKeys tierAllowsExecInjection body pre
  let injected ← injectable.mapM fun e => do
    let value ← listedValue body e.key "exec"
    .ok (envNameFor e.key pre, value)
  .ok (injected, skipped)

/-- What `cmd_export_env` prints to stdout. -/
def exportEnv (body : VaultBody) (key envName : Str) : Result Str :=
  let keyTier := (body.tierOf key).getD 0
  if !tierAllowsExport keyTier then
    let signOnly : String :=
      if tierSignOnly ≤ keyTier then
        s!"   (tier {tierSignOnly} is excluded from exec too)\n  hearth-vault sign --key " ++
          s!"{String.ofList key} --algorithm <alg> --message <msg>"
      else ""
    bail (s!"key {String.ofList key} is tier {keyTier}, which is never printed.\n\n" ++
      s!"Tiers: 1/2 exportable, 3 use-only (the default), {tierSignOnly} sign-only.\n\n" ++
      "Use it without printing it:\n  hearth-vault exec --prefix <prefix> -- <command>" ++
      signOnly ++ "\nOr, if you really need the value on stdout:\n" ++
      s!"  hearth-vault retier {String.ofList key} --tier 2")
  else match body.value? key with
    | some value =>
      .ok ("export ".toList ++ envName ++ "=".toList ++ shellEscape value ++ "\n".toList)
    | none => bail s!"key not found: {String.ofList key}"

/-- The file `cmd_export_env_file` writes. -/
def exportEnvFile [Unicode] (body : VaultBody) (pre : Str) : Result Str := do
  let (lines, skipped) ← collectExportLines body pre
  if lines = [] then
    if skipped ≠ [] then
      bail (s!"all matching keys for prefix '{String.ofList pre}' are tier {tierUseOnly} or " ++
        s!"higher and are never printed. Use `hearth-vault exec --prefix {String.ofList pre} " ++
        "-- <command>` to hand them to a process without writing them anywhere.")
    else bail s!"no keys found with prefix '{String.ofList pre}'"
  else .ok (Str.join "\n".toList (lines.map ExportLine.line) ++ "\n".toList)

/-- The payload `cmd_share` seals. -/
def shareBody (body : VaultBody) (pre : Str) (recipient : Identity) (maxTier : Option UInt8)
    (note : Option Str) : Result (PublicKey × Payload) :=
  let entries := body.entriesWithPrefix pre
  if entries = [] then bail s!"no keys under prefix '{String.ofList pre}'"
  else sharePayload entries recipient maxTier note

end HearthVault
