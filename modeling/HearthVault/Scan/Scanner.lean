/-
HearthVault.Scan.Scanner — the secret scanner: what it reports of a line, of a
file and of a list of files, and the vault key that it suggests.

The rules are a parameter: a pattern is any function from a line to matches
within it, and the entropy gate any predicate. Which match of a line is
reported is decided here, by the order of the rules and the bytes that are
already claimed.
-/
import HearthVault.Cli.Adopt

namespace HearthVault

open Files

/-! ## Suggested keys -/

/-- `to_ascii_lowercase`. -/
def asciiLowercase (s : Str) : Str :=
  s.map Char.toLower

/-- `service_name_from_path`. The file name of the parent directory is its
last component; there is none at the root, in the scanned directory, or
after `..`. -/
def serviceNameFromPath (path : Path) : Str :=
  let components := (Str.split '/' path.dir).filter fun s => s ≠ [] ∧ s ≠ ".".toList
  let name := (components.getLast?.filter (· ≠ "..".toList)).map asciiLowercase
  (name.filter fun s => s ≠ [] ∧ s ≠ ".".toList).getD "app".toList

/-- The keys that `suggested_key_for` has for a rule whatever the file. -/
def ruleKeys : List (String × String) := [
  ("aws-access-key", "aws/access_key_id"),
  ("github-token", "github/token"),
  ("github-fine-grained-pat", "github/token"),
  ("gitlab-token", "gitlab/token"),
  ("slack-token", "slack/token"),
  ("slack-webhook", "slack/webhook_url"),
  ("stripe-key", "stripe/api_key"),
  ("openai-key", "openai/api_key"),
  ("anthropic-key", "anthropic/api_key"),
  ("google-api-key", "google/api_key"),
  ("gcp-service-account", "gcp/service_account_json"),
  ("sendgrid-key", "sendgrid/api_key"),
  ("twilio-api-key", "twilio/api_key"),
  ("twilio-account-sid", "twilio/account_sid"),
  ("npm-token", "npm/token"),
  ("pypi-token", "pypi/token"),
  ("digitalocean-token", "digitalocean/token"),
  ("hashicorp-vault-token", "vault/token"),
  ("telegram-bot-token", "telegram/bot_token"),
  ("jwt", "jwt/token"),
  ("private-key", "keys/private_key")]

/-- `suggested_key_for`. -/
def suggestedKeyFor (ruleId : Str) (path : Path) (keyname : Option Str) : Str :=
  match ruleKeys.find? fun rule => rule.1.toList = ruleId with
  | some rule => rule.2.toList
  | none =>
    if ruleId = "connection-string-credentials".toList then
      serviceNameFromPath path ++ "/db_password".toList
    else if ruleId = "generic-assignment".toList then
      let field := (asciiLowercase (keyname.getD "value".toList)).map fun c =>
        if c = '-' ∨ c = ' ' then '_' else c
      serviceNameFromPath path ++ '/' :: field
    else serviceNameFromPath path ++ "/secret".toList

example : suggestedKeyFor "openai-key".toList ⟨"pyapp".toList, ".env".toList⟩ none =
    "openai/api_key".toList := by decide

example : suggestedKeyFor "dotenv-assignment".toList ⟨"./PyApp".toList, ".env".toList⟩ none =
    "pyapp/secret".toList := by decide

/-! ## Rules -/

/-- What a group of a match has captured, and the bytes of the line it is at. -/
structure Group where
  text : Str
  start : Nat
  stop : Nat
  deriving DecidableEq, Repr

/-- `regex::Captures`, with the two groups that the rules name. -/
structure Captures where
  whole : Group
  secret : Option Group
  keyname : Option Group
  deriving DecidableEq, Repr

/-- `extract_with_span`. -/
def Captures.extractWithSpan (caps : Captures) : Group :=
  caps.secret.getD caps.whole

/-- A `Rule`: the matches of its pattern in a line, and the values whose
entropy is too low for it. A match is within its line. -/
structure Rule where
  id : Str
  captures : Str → List Captures
  lowEntropy : Str → Bool
  inBounds : ∀ line, ∀ caps ∈ captures line,
    caps.extractWithSpan.start ≤ caps.extractWithSpan.stop ∧
      caps.extractWithSpan.stop ≤ (Str.utf8 line).length

/-- The rule table, in order, and `is_placeholder`. -/
structure Scanner where
  rules : List Rule
  isPlaceholder : Str → Bool

/-- `redact`. -/
def redact (secret : Str) : Str :=
  let visible := if 4 < secret.length then 4 else 0
  secret.take visible ++ '…' :: '(' :: Nat.toDigits 10 secret.length ++ " chars)".toList

/-- `line_has_allow_comment`. -/
def lineHasAllowComment (line : Str) : Bool :=
  "hearth-vault:allow".toList <:+: line ∨ "gitleaks:allow".toList <:+: line

/-- `is_dotenv_style`. -/
def isDotenvStyle (path : Path) : Bool :=
  let lower := asciiLowercase path.name
  lower == "environment".toList || lower == ".envrc".toList || lower == ".env".toList ||
    ".env.".toList.isPrefixOf lower || ".env".toList.isSuffixOf lower

/-! ## Scanning -/

/-- A `Finding`, as it is reported. -/
structure ScanFinding extends Finding where
  ruleId : Str
  redacted : Str
  deriving DecidableEq, Repr

/-- The bytes of a line that are claimed, and the findings so far. -/
structure LineState where
  claimed : List Bool
  findings : List ScanFinding

/-- A slice of the byte map; there is none where the index would panic. -/
def sliceOf (claimed : List Bool) (start stop : Nat) : Option (List Bool) :=
  if start ≤ stop ∧ stop ≤ claimed.length then some ((claimed.drop start).take (stop - start))
  else none

/-- The byte map with a slice claimed. -/
def claim (claimed : List Bool) (start stop : Nat) : List Bool :=
  claimed.take start ++ List.replicate (stop - start) true ++ claimed.drop stop

/-- A value that no gate of the rule holds back. -/
def Scanner.reports (scanner : Scanner) (rule : Rule) (secret : Str) : Bool :=
  secret ≠ [] && !scanner.isPlaceholder secret && !rule.lowEntropy secret &&
    !("generic-high-entropy".toList.isPrefixOf rule.id && !secret.any Char.isDigit)

section

variable (scanner : Scanner) (path : Path) (lineNumber : Nat)

/-- One match. -/
def scanCaptures (rule : Rule) (caps : Captures) (state : LineState) : Option LineState := do
  let secret := caps.extractWithSpan
  let stop := min secret.stop state.claimed.length
  let taken ← sliceOf state.claimed secret.start stop
  if taken.any id then some state
  else if !scanner.reports rule secret.text then some state
  else some {
    claimed := claim state.claimed secret.start stop
    findings := state.findings ++ [{
      path, lineNumber
      suggestedKey := suggestedKeyFor rule.id path (caps.keyname.map Group.text)
      ruleId := rule.id
      redacted := redact secret.text }] }

/-- One rule, over a line. -/
def scanRule (rule : Rule) (line : Str) (state : LineState) : Option LineState :=
  if rule.id = "dotenv-assignment".toList ∧ !isDotenvStyle path then some state
  else (rule.captures line).foldlM (fun state caps =>
    scanCaptures scanner path lineNumber rule caps state) state

/-- One line. -/
def scanLine (line : Str) : Option (List ScanFinding) :=
  if lineHasAllowComment line then some []
  else do
    let state ← scanner.rules.foldlM (fun state rule =>
      scanRule scanner path lineNumber rule line state)
      ⟨List.replicate (Str.utf8 line).length false, []⟩
    some state.findings

end

/-- The lines of a file from a number on. -/
def scanLines (scanner : Scanner) (path : Path) : Nat → List Str → Option (List ScanFinding)
  | _, [] => some []
  | lineNumber, line :: rest => do
    let findings ← scanLine scanner path lineNumber line
    let others ← scanLines scanner path (lineNumber + 1) rest
    some (findings ++ others)

/-- `scan_files`. A file that cannot be read as text is passed over; there is
no result where an index panics. -/
def scanFiles (scanner : Scanner) (readToString : Path → Option Str) :
    List Path → Option (List ScanFinding)
  | [] => some []
  | file :: rest =>
    match readToString file with
    | none => scanFiles scanner readToString rest
    | some content => do
      let findings ← scanLines scanner file 1 (Str.lines content)
      let others ← scanFiles scanner readToString rest
      some (findings ++ others)

end HearthVault
