/-
HearthVault.Cli.Dotenv — the two small parsers of the command line:
`parse_dotenv` and `parse_when`.

`parseDotenv` reads a dotenv file line by line; a line that is blank, a
comment or no assignment gives no pair, and every other line gives one.
-/
import HearthVault.Store.Entries

namespace HearthVault

open Files Calendar

/-! ## Dotenv files -/

/-- The value of an assignment, without its quotes; a double-quoted value has
its escapes rewritten one after the other. -/
def unquote (value : Str) : Str :=
  let quotedBy (q : Char) : Bool :=
    2 ≤ value.length && value.head? == some q && value.getLast? == some q
  let inner := value.tail.dropLast
  if quotedBy '"' then
    Str.replace "\\\\".toList "\\".toList
      (Str.replace "\\\"".toList "\"".toList (Str.replace "\\n".toList "\n".toList inner))
  else if quotedBy '\'' then inner
  else value

/-- One line of `parse_dotenv`. -/
def parseDotenvLine (rawLine : Str) : Option (Str × Str) :=
  let line := Str.trim rawLine
  if line = [] ∨ line.head? = some '#' then none
  else
    let line := Str.trimStart ((Str.stripPrefix "export ".toList line).getD line)
    match Str.splitOnce '=' line with
    | none => none
    | some (key, value) =>
      let key := Str.trim key
      if key = [] then none else some (key, unquote (Str.trim value))

/-- `parse_dotenv`. -/
def parseDotenv (contents : Str) : List (Str × Str) :=
  (Str.lines contents).filterMap parseDotenvLine

example : parseDotenv "# c\nexport A = \"x\\ny\"\nB='q'\nnoise\nA=\n".toList =
    [("A".toList, "x\ny".toList), ("B".toList, "q".toList), ("A".toList, [])] := by decide

/-! ## Due dates -/

/-- The `chrono` parser of RFC 3339, with the parsed instant printed again by
`to_rfc3339`. -/
class Chrono where
  reprint : Str → Option Str

/-- `str::parse::<i64>`. -/
def parseI64 (s : Str) : Option Int :=
  let (negative, digits) : Bool × Str := match s with
    | '-' :: rest => (true, rest)
    | '+' :: rest => (false, rest)
    | _ => (false, s)
  if digits = [] ∨ ¬digits.all Char.isDigit then none
  else
    let n : Int := digits.foldl (fun n c => 10 * n + (c.toNat - '0'.toNat)) (0 : Nat)
    let v := if negative then -n else n
    if -9223372036854775808 ≤ v ∧ v ≤ 9223372036854775807 then some v else none

/-- `parse_when`. The product of a count and its unit wraps. -/
def parseWhen [Chrono] (now : DateTime) (input : Str) : Result Str :=
  let input := Str.trim input
  let unit? : Option Int := match input.getLast? with
    | some 'd' => some 1
    | some 'w' => some 7
    | some 'm' => some 30
    | some 'y' => some 365
    | _ => none
  match Chrono.reprint input, unit? with
  | some absolute, _ => .ok absolute
  | none, some unit =>
    match parseI64 input.dropLast with
    | none => bail s!"could not read '{String.ofList input}' as a duration (try 30d, 12w, 6m, 1y)"
    | some n => do
      let due ← addDays now (Int.bmod (n * unit) (2 ^ 64))
      .ok (toRfc3339 due)
  | none, none =>
    bail (s!"could not read '{String.ofList input}' as a date — use RFC3339 " ++
      "(2026-12-01T00:00:00Z) or a relative offset (30d, 12w, 6m, 1y)")

end HearthVault
