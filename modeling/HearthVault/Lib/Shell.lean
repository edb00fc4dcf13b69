/-
HearthVault.Lib.Shell — how a POSIX shell takes a text apart into words and
commands.

The rules are those of quoting: between single quotes every character stands
for itself, a backslash outside of them makes the next character stand for
itself (and is gone with a line break that it stands before), blanks end a
word, line breaks end a command. A character that is an operator, an
expansion, a pattern, a comment or a double quote where it is not quoted is
outside of these rules, and a text that has one is not read; nor is one that
ends within a quotation. What `read` gives is therefore all that the shell
sees of the text.
-/
import Mathlib.Algebra.Ring.Nat
import Mathlib.Data.List.Basic

namespace HearthVault.Shell

inductive Mode
  | bare
  | quoted
  | escaped
  deriving DecidableEq, Repr

/-- What was read: the word and the command that are not ended yet, and the
commands before them. -/
structure Reader where
  mode : Mode
  word : Option (List Char)
  words : List (List Char)
  commands : List (List (List Char))
  deriving DecidableEq, Repr

/-- A character that no shell text holds. -/
def nul : Char :=
  Char.ofNat 0

/-- What means something to the shell besides quoting. -/
def special : List Char :=
  "|&;<>()$`\"*?[]#~{}!".toList

def isBlank (c : Char) : Bool :=
  c = ' ' || c = '\t'

namespace Reader

def start : Reader :=
  { mode := .bare, word := none, words := [], commands := [] }

/-- More of a word; a word that is quoted may be empty. -/
def push (r : Reader) (s : List Char) : Reader :=
  { r with word := some (r.word.getD [] ++ s) }

def enter (r : Reader) (mode : Mode) : Reader :=
  { r with mode }

def endWord (r : Reader) : Reader :=
  match r.word with
  | none => r
  | some w => { r with word := none, words := r.words ++ [w] }

def endCommand (r : Reader) : Reader :=
  let r := r.endWord
  if r.words = [] then r else { r with words := [], commands := r.commands ++ [r.words] }

def stepBare (r : Reader) (c : Char) : Option Reader :=
  if c = '\'' then some ((r.push []).enter .quoted)
  else if c = '\\' then some (r.enter .escaped)
  else if c = '\n' then some r.endCommand
  else if isBlank c then some r.endWord
  else if c ∈ special then none
  else some (r.push [c])

def stepQuoted (r : Reader) (c : Char) : Reader :=
  if c = '\'' then r.enter .bare else r.push [c]

def stepEscaped (r : Reader) (c : Char) : Reader :=
  if c = '\n' then r.enter .bare else (r.push [c]).enter .bare

def step (r : Reader) (c : Char) : Option Reader :=
  if c = nul then none
  else match r.mode with
    | .bare => r.stepBare c
    | .quoted => some (r.stepQuoted c)
    | .escaped => some (r.stepEscaped c)

def run (r : Reader) (s : List Char) : Option Reader :=
  s.foldlM step r

end Reader

/-- The commands of a text, each with its words. -/
def read (s : List Char) : Option (List (List (List Char))) :=
  match Reader.start.run s with
  | none => none
  | some r => if r.mode = .bare then some r.endCommand.commands else none

example : read "a 'b  c'\\ d\ne\\\nf ''\n".toList =
    some [["a".toList, "b  c d".toList], ["ef".toList, []]] := by decide

example : read "a; b".toList = none ∧ read "a 'b".toList = none := by decide

/-- A character that stands for itself without quotes. -/
def isPlain (c : Char) : Bool :=
  c ≠ nul && c ≠ '\'' && c ≠ '\\' && c ≠ '\n' && !isBlank c && !special.contains c

/-- A character between single quotes: a quote leaves them, is escaped, and
enters them again. -/
def quoteChar (c : Char) : List Char :=
  if c = '\'' then "'\\''".toList else [c]

/-- A text in single quotes. -/
def quote (s : List Char) : List Char :=
  '\'' :: (s.flatMap quoteChar ++ ['\''])

/-! ## The reader, piece by piece -/

namespace Reader

variable (r : Reader) (a b : List Char) (mode : Mode)

@[simp] theorem mode_push : (r.push a).mode = r.mode := rfl

@[simp] theorem mode_enter : (r.enter mode).mode = mode := rfl

@[simp] theorem push_push : (r.push a).push b = r.push (a ++ b) := by
  simp [push]

@[simp] theorem mode_endWord : r.endWord.mode = r.mode := by
  unfold endWord
  split <;> rfl

theorem push_enter : (r.enter mode).push a = (r.push a).enter mode := rfl

@[simp] theorem enter_enter (mode' : Mode) : (r.enter mode).enter mode' = r.enter mode' := rfl

theorem enter_mode : r.enter r.mode = r := rfl

@[simp] theorem run_nil : r.run [] = some r := rfl

theorem run_cons (c : Char) (s : List Char) : r.run (c :: s) = (r.step c).bind (·.run s) :=
  List.foldlM_cons

theorem run_append : r.run (a ++ b) = (r.run a).bind (·.run b) :=
  List.foldlM_append

variable {r}

theorem step_plain (hmode : r.mode = .bare) {c : Char} (h : isPlain c) :
    r.step c = some (r.push [c]) := by
  simp only [isPlain, Bool.and_eq_true, decide_eq_true_eq, Bool.not_eq_true',
    List.contains_eq_mem, decide_eq_false_iff_not] at h
  obtain ⟨⟨⟨⟨⟨hnul, hquote⟩, hback⟩, hline⟩, hblank⟩, hspecial⟩ := h
  simp [step, stepBare, hmode, hnul, hquote, hback, hline, hblank, hspecial]

/-- Plain characters are read as they stand. -/
theorem run_plain (hmode : r.mode = .bare) {s : List Char} (hne : s ≠ [])
    (h : ∀ c ∈ s, isPlain c) : r.run s = some (r.push s) := by
  induction s generalizing r with
  | nil => exact absurd rfl hne
  | cons c s ih =>
    obtain ⟨hc, hs⟩ := List.forall_mem_cons.mp h
    rw [run_cons, step_plain hmode hc, Option.bind_some]
    by_cases hend : s = []
    · rw [hend, run_nil]
    · have hpush : (r.push [c]).mode = .bare := hmode
      rw [ih hpush hend hs, push_push, List.singleton_append]

/-- One character between quotes, the opening quote read. -/
theorem run_quoteChar {c : Char} (hnul : c ≠ nul) :
    (r.enter .quoted).run (quoteChar c) = some ((r.push [c]).enter .quoted) := by
  by_cases hquote : c = '\''
  · subst hquote
    simp [quoteChar, run_cons, step, stepQuoted, stepEscaped, stepBare, nul, push_enter]
  · simp [quoteChar, hquote, run_cons, step, stepQuoted, hnul, push_enter]

theorem run_flatMap_quoteChar {s : List Char} (hnul : nul ∉ s) (w : List Char) :
    ((r.push w).enter .quoted).run (s.flatMap quoteChar) =
      some ((r.push (w ++ s)).enter .quoted) := by
  induction s generalizing w with
  | nil => simp
  | cons c s ih =>
    obtain ⟨hc, hs⟩ := not_or.mp (List.mem_cons.not.mp hnul)
    rw [List.flatMap_cons, run_append, run_quoteChar (Ne.symm hc), Option.bind_some, push_push,
      ih hs, List.append_assoc, List.singleton_append]

/-- A text in quotes is read as it is, whatever is in it. -/
theorem run_quote (hmode : r.mode = .bare) {s : List Char} (hnul : nul ∉ s) :
    r.run (quote s) = some (r.push s) := by
  have hopen : r.step '\'' = some ((r.push []).enter .quoted) := by
    simp [step, stepBare, hmode, nul]
  have hclose : ((r.push s).enter .quoted).run ['\''] = some (r.push s) := by
    have hbare : (r.push s).enter .bare = r.push s := by rw [← hmode, ← push_enter, enter_mode]
    simp [run_cons, step, stepQuoted, nul, hbare]
  rw [quote, run_cons, hopen, Option.bind_some, run_append, run_flatMap_quoteChar hnul,
    Option.bind_some, List.nil_append, hclose]

theorem run_blank (hmode : r.mode = .bare) : r.run [' '] = some r.endWord := by
  simp [run_cons, step, stepBare, hmode, nul, isBlank]

theorem run_newline (hmode : r.mode = .bare) : r.run ['\n'] = some r.endCommand := by
  simp [run_cons, step, stepBare, hmode, nul]

end Reader

end HearthVault.Shell
