/-
HearthVault.Cli.ExportTheorems — what a shell sees of the line that
`export-env` prints.

`shell_escape` is the single quotes of `Shell.quote`, so a reader that stands
at the start of a command reads one command of two words, whatever the value
is, and stands at the start of a command again (`exportEnv_oneCommand`). A
value with a NUL character is left out: no shell word can hold one.
-/
import HearthVault.Cli.Sinks
import HearthVault.Lib.Shell

namespace HearthVault

open Files Shell

/-- The name of a shell variable: letters, digits and underscores, with no
digit at the front. -/
structure IsShellName (name : Str) : Prop where
  chars : ∀ c ∈ name, c.isAlphanum ∨ c = '_'
  front : ∃ c rest, name = c :: rest ∧ c.isDigit = false

/-- The two words of an export. -/
def exportWords (envName value : Str) : List Str :=
  ["export".toList, envName ++ '=' :: value]

/-- The line of an export. -/
def exportLine (envName value : Str) : Str :=
  "export ".toList ++ envName ++ "=".toList ++ shellEscape value ++ "\n".toList

theorem shellEscape_eq (s : Str) : shellEscape s = quote s := by
  have hreplace : Str.replace "'".toList "'\\''".toList s = s.flatMap quoteChar := by
    induction s with
    | nil => rfl
    | cons c s ih =>
      rw [List.flatMap_cons, ← ih]
      by_cases hquote : c = '\''
      · subst hquote
        exact Str.replaceFrom_hit (List.cons_ne_nil '\'' [])
      · have hmiss : ¬ "'".toList <+: c :: s := by
          simp [Ne.symm hquote]
        rw [quoteChar, if_neg hquote]
        exact Str.replaceFrom_miss hmiss
  rw [shellEscape, hreplace]
  rfl

theorem isPlain_iff (c : Char) :
    isPlain c ↔ c ∉ [nul, '\'', '\\', '\n', ' ', '\t'] ++ special := by
  simp [isPlain, isBlank, and_assoc]

theorem isPlain_of_name {c : Char} (h : c.isAlphanum ∨ c = '_') : isPlain c := by
  have hnone : ∀ d ∈ [nul, '\'', '\\', '\n', ' ', '\t'] ++ special,
      (!(d.isAlphanum || d == '_')) = true := List.all_eq_true.mp (by decide)
  rw [isPlain_iff]
  intro hmem
  have hno := hnone c hmem
  simp only [Bool.not_eq_true', Bool.or_eq_false_iff, beq_eq_false_iff_ne] at hno
  obtain h | h := h
  · rw [hno.1] at h
    cases h
  · exact hno.2 h

theorem export_blank : "export ".toList = "export".toList ++ [' '] := by decide

theorem isPlain_export : ∀ c ∈ "export".toList, isPlain c :=
  List.all_eq_true.mp (by decide)

/-- The front of the second word. -/
theorem isPlain_assign {name : Str} (h : IsShellName name) : ∀ c ∈ name ++ ['='], isPlain c := by
  intro c hc
  obtain hc | hc := List.mem_append.mp hc
  · exact isPlain_of_name (h.chars c hc)
  · rw [List.mem_singleton.mp hc]
    decide

/-- A reader at the start of a command. -/
structure AtCommand (r : Reader) : Prop where
  mode : r.mode = .bare
  word : r.word = none
  words : r.words = []

/-- A line is one command, from wherever a command may begin. -/
theorem run_exportLine {r : Reader} (hr : AtCommand r) {name s : Str} (hname : IsShellName name)
    (hs : nul ∉ s) :
    r.run (exportLine name s) =
      some { r with commands := r.commands ++ [exportWords name s] } := by
  have hline : exportLine name s =
      "export".toList ++ ([' '] ++ ((name ++ ['=']) ++ (quote s ++ ['\n']))) := by
    have hassign : "=".toList = ['='] := rfl
    have hbreak : "\n".toList = ['\n'] := rfl
    unfold exportLine
    simp only [export_blank, shellEscape_eq, hassign, hbreak, List.append_assoc]
  have hmode := hr.mode
  rw [hline, Reader.run_append, Reader.run_plain hmode (by simp) isPlain_export,
    Option.bind_some, Reader.run_append, Reader.run_blank (by simp [hmode]), Option.bind_some,
    Reader.run_append, Reader.run_plain (by simp [hmode]) (by simp) (isPlain_assign hname),
    Option.bind_some, Reader.run_append, Reader.run_quote (by simp [hmode]) hs,
    Option.bind_some, Reader.run_newline (by simp [hmode])]
  simp [Reader.push, Reader.endWord, Reader.endCommand, exportWords, hr.word, hr.words]

/-- The line of an export is read as the command to export that value under
that name and as nothing else, and it is what `export-env` prints. -/
theorem exportEnv_oneCommand {name : Str} (hname : IsShellName name) :
    (∀ s, nul ∉ s →
      Shell.read ("export ".toList ++ name ++ "=".toList ++ shellEscape s ++ "\n".toList) =
        some [["export".toList, name ++ "=".toList ++ s]]) ∧
    ∀ (body : VaultBody) (key text : Str), exportEnv body key name = .ok text →
      ∃ s, body.value? key = some s ∧
        (nul ∉ s → Shell.read text = some [["export".toList, name ++ "=".toList ++ s]]) := by
  have hread : ∀ s, nul ∉ s → Shell.read (exportLine name s) = some [exportWords name s] := by
    intro s hs
    have hrun := run_exportLine (r := Reader.start) ⟨rfl, rfl, rfl⟩ hname hs
    rw [Shell.read, hrun]
    simp [Reader.start, Reader.endCommand, Reader.endWord]
  have hwords : ∀ s, exportWords name s = ["export".toList, name ++ "=".toList ++ s] := by
    intro s
    rw [List.append_assoc]
    rfl
  refine ⟨fun s hs => ?_, fun body key text h => ?_⟩
  · rw [← hwords]
    exact hread s hs
  · unfold exportEnv at h
    dsimp only at h
    split at h
    · cases h
    split at h
    · rename_i value hvalue
      cases h
      refine ⟨value, hvalue, fun hs => ?_⟩
      rw [← hwords]
      exact hread value hs
    · cases h

theorem exportEnv_oneCommand_quotes :
    Shell.read ("export ".toList ++ "DB_PASS".toList ++ "=".toList ++
      shellEscape "';rm -rf ~\n'".toList ++ "\n".toList) =
        some [["export".toList, "DB_PASS".toList ++ "=".toList ++ "';rm -rf ~\n'".toList]] := by
  have hname : IsShellName "DB_PASS".toList := by
    refine ⟨?_, 'D', "B_PASS".toList, by simp, by simp⟩
    simp
  exact (exportEnv_oneCommand hname).1 _ (by decide)

end HearthVault
