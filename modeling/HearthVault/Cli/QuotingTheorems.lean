/-
HearthVault.Cli.QuotingTheorems — which values survive being quoted in a
dotenv line.

`parse_dotenv` undoes the escapes of a double-quoted value by three
replacements of the whole text, and each of them reads across the escapes
that the others are for. `render` follows a value through the three stages.
What is left of the quoting at the end is one case: a backslash before an `n`
is escaped to two backslashes before an `n`, and the first replacement takes
the second of them for a line break (`unquote_quote`). Every other way in
which backslashes, quotes and line breaks meet comes out as it went in.
-/
import HearthVault.Cli.DotenvTheorems

namespace HearthVault

/-! ## Encoding -/

/-- A character within double quotes. -/
def escapeChar (c : Char) : Str :=
  if c = '\\' then ['\\', '\\'] else if c = '"' then ['\\', '"']
  else if c = '\n' then ['\\', 'n'] else [c]

/-- A value within double quotes. -/
def escape (v : Str) : Str :=
  v.flatMap escapeChar

/-- A value in double quotes. -/
def quote (v : Str) : Str :=
  '"' :: escape v ++ ['"']

/-! ## The three replacements -/

/-- An escaped value at one of the stages, `backslash` and `quote` being what
is there for these two characters. An `n` after a backslash has become a line
break, and took half of the backslash's escape with it. -/
def render (backslash quote : Str) : Bool → Str → Str
  | _, [] => []
  | after, c :: s =>
    (if c = '\\' then (if s.head? = some 'n' then ['\\'] else backslash)
      else if c = '"' then quote
      else if c = 'n' ∧ after then ['\n']
      else [c]) ++ render backslash quote (c = '\\') s

theorem render_of_head {backslash quote s : Str} (h : s.head? ≠ some 'n') (after : Bool) :
    render backslash quote after s = render backslash quote false s := by
  cases s with
  | nil => rfl
  | cons c s =>
    have hc : c ≠ 'n' := fun hc => h (by rw [hc]; rfl)
    simp [render, hc]

theorem render_newline (backslash quote s : Str) :
    render backslash quote true ('n' :: s) = '\n' :: render backslash quote false s := by
  simp [render]

/-- A rule for the two characters `\x`: where a text does not begin with them,
the first character is copied. -/
theorem replace_cons {x c : Char} {new s : Str} (h : c ≠ '\\' ∨ s.head? ≠ some x) :
    Str.replace ['\\', x] new (c :: s) = c :: Str.replace ['\\', x] new s := by
  refine Str.replaceFrom_miss fun hpre => ?_
  obtain ⟨hc, hpre⟩ := List.cons_prefix_cons.mp hpre
  obtain h | h := h
  · exact h hc.symm
  · cases s with
    | nil => simp at hpre
    | cons y s => exact h (by rw [(List.cons_prefix_cons.mp hpre).1]; rfl)

theorem replace_hit (x : Char) (new s : Str) :
    Str.replace ['\\', x] new ('\\' :: x :: s) = new ++ Str.replace ['\\', x] new s :=
  Str.replaceFrom_hit (List.cons_ne_nil '\\' [x])

theorem head_escape {s : Str} : (escape s).head? = some 'n' ↔ s.head? = some 'n' := by
  cases s with
  | nil => simp [escape]
  | cons c s =>
    unfold escape escapeChar
    by_cases h₁ : c = '\\'
    · simp [h₁]
    · by_cases h₂ : c = '"'
      · simp [h₂]
      · by_cases h₃ : c = '\n'
        · simp [h₃]
        · simp [h₁, h₂, h₃]

/-- The first replacement. -/
theorem replace_newline (s : Str) :
    Str.replace ['\\', 'n'] ['\n'] (escape s) = render ['\\', '\\'] ['\\', '"'] false s ∧
      (s.head? = some 'n' → Str.replace ['\\', 'n'] ['\n'] ('\\' :: escape s) =
        render ['\\', '\\'] ['\\', '"'] true s) := by
  induction s with
  | nil => simp [escape, render, Str.replace, Str.replaceFrom]
  | cons c s ih =>
    obtain ⟨ih, ihn⟩ := ih
    have hcons : escape (c :: s) = escapeChar c ++ escape s := rfl
    constructor
    · rw [hcons]
      by_cases h₁ : c = '\\'
      · subst h₁
        have hfirst : escapeChar '\\' ++ escape s = '\\' :: '\\' :: escape s := rfl
        rw [hfirst, replace_cons (.inr (by simp))]
        by_cases hn : s.head? = some 'n'
        · rw [ihn hn]
          simp [render, hn]
        · rw [replace_cons (.inr (mt head_escape.mp hn)), ih]
          simp [render, hn, render_of_head hn true]
      · by_cases h₂ : c = '"'
        · subst h₂
          have hfirst : escapeChar '"' ++ escape s = '\\' :: '"' :: escape s := rfl
          rw [hfirst, replace_cons (.inr (by simp)), replace_cons (.inl (by decide)), ih]
          simp [render]
        · by_cases h₃ : c = '\n'
          · subst h₃
            have hfirst : escapeChar '\n' ++ escape s = '\\' :: 'n' :: escape s := rfl
            rw [hfirst, replace_hit, ih]
            simp [render]
          · have hfirst : escapeChar c = [c] := by simp [escapeChar, h₁, h₂, h₃]
            rw [hfirst, List.singleton_append, replace_cons (.inl h₁), ih]
            simp [render, h₁, h₂]
    · intro hhead
      obtain rfl : c = 'n' := by simpa using hhead
      have hfirst : escapeChar 'n' = ['n'] := by decide
      rw [hcons, hfirst, List.singleton_append, replace_hit, ih, render_newline]
      rfl

/-- The second replacement. -/
theorem replace_quote (after : Bool) (s : Str) :
    Str.replace ['\\', '"'] ['"'] (render ['\\', '\\'] ['\\', '"'] after s) =
      render ['\\', '\\'] ['"'] after s := by
  induction s generalizing after with
  | nil => rfl
  | cons c s ih =>
    -- At this stage no quote stands without its backslash.
    have hhead : ∀ after, (render ['\\', '\\'] ['\\', '"'] after s).head? ≠ some '"' := by
      intro after
      cases s with
      | nil => simp [render]
      | cons d s =>
        unfold render
        split
        · split <;> simp
        · split
          · simp
          · rename_i hd
            split
            · simp
            · simpa using hd
    rw [render, render]
    split
    · split
      · rw [List.singleton_append, List.singleton_append, replace_cons (.inr (hhead _)), ih]
      · rw [List.cons_append, List.cons_append, List.cons_append, List.cons_append,
          replace_cons (.inr (by simp)), List.nil_append, replace_cons (.inr (hhead _)), ih]
        rfl
    · rename_i hc
      split
      · rw [List.cons_append, List.cons_append, List.nil_append, replace_hit, ih]
      · split
        · rw [List.singleton_append, List.singleton_append, replace_cons (.inl (by decide)), ih]
        · rw [List.singleton_append, List.singleton_append, replace_cons (.inl hc), ih]

/-- The third replacement. -/
theorem replace_backslash (after : Bool) (s : Str) :
    Str.replace ['\\', '\\'] ['\\'] (render ['\\', '\\'] ['"'] after s) =
      render ['\\'] ['"'] after s := by
  induction s generalizing after with
  | nil => rfl
  | cons c s ih =>
    rw [render, render]
    split
    · split
      · rename_i hn
        obtain ⟨t, rfl⟩ : ∃ t, s = 'n' :: t := by
          cases s with
          | nil => cases hn
          | cons d t => exact ⟨t, by rw [Option.some.inj hn]⟩
        rw [List.singleton_append, List.singleton_append, replace_cons (.inr ?_), ih]
        rw [show decide (c = '\\') = true by simpa using ‹c = '\\'›, render_newline]
        simp
      · rw [List.cons_append, List.cons_append, List.nil_append, replace_hit, ih]
    · rename_i hc
      split
      · rw [List.singleton_append, List.singleton_append, replace_cons (.inl (by decide)), ih]
      · split
        · rw [List.singleton_append, List.singleton_append, replace_cons (.inl (by decide)), ih]
        · rw [List.singleton_append, List.singleton_append, replace_cons (.inl hc), ih]

/-- What becomes of a value: each `n` after a backslash is a line break. -/
def misread (v : Str) : Str :=
  render ['\\'] ['"'] false v

/-- **A quoted value is read back**, with its line breaks put in. -/
theorem unquote_quote (v : Str) : unquote (quote v) = misread v := by
  have hlast : (quote v).getLast? = some '"' := by
    unfold quote
    rw [List.getLast?_append]
    rfl
  have hquoted : (decide (2 ≤ (quote v).length) && (quote v).head? == some '"' &&
      (quote v).getLast? == some '"') = true := by
    rw [hlast]
    simp [quote]
  have hinner : (quote v).tail.dropLast = escape v := by
    unfold quote
    rw [List.cons_append, List.tail_cons, List.dropLast_concat]
  unfold unquote
  dsimp only
  rw [if_pos hquoted, hinner]
  have hstages : Str.replace ['\\', '\\'] ['\\'] (Str.replace ['\\', '"'] ['"']
      (Str.replace ['\\', 'n'] ['\n'] (escape v))) = misread v := by
    rw [(replace_newline v).1, replace_quote, replace_backslash, misread]
  exact hstages

theorem render_eq_self_iff (after : Bool) (s : Str) :
    render ['\\'] ['"'] after s = s ↔
      (after = true → s.head? ≠ some 'n') ∧ ¬ ['\\', 'n'] <:+: s := by
  induction s generalizing after with
  | nil => simp [render]
  | cons c s ih =>
    have hbegins : ['\\', 'n'] <:+: c :: s ↔
        (c = '\\' ∧ s.head? = some 'n') ∨ ['\\', 'n'] <:+: s := by
      rw [List.infix_cons_iff, List.cons_prefix_cons]
      cases s with
      | nil => simp
      | cons d s => simp [List.cons_prefix_cons, eq_comm]
    rw [hbegins]
    by_cases h₁ : c = '\\'
    · simp [render, h₁, ih]
    · by_cases h₂ : c = 'n' ∧ after = true
      · obtain ⟨rfl, rfl⟩ := h₂
        simp [render]
      · have hkeep : render ['\\'] ['"'] after (c :: s) = c :: render ['\\'] ['"'] false s := by
          by_cases h₃ : c = '"'
          · simp [render, h₃]
          · simp [render, h₁, h₂, h₃]
        have hfree : after = true → c ≠ 'n' := fun hafter hc => h₂ ⟨hc, hafter⟩
        simp [hkeep, ih, h₁]
        exact fun _ => hfree

/-- **A value survives being quoted** if and only if no backslash in it stands
before an `n`. -/
theorem misread_eq_self_iff (v : Str) : misread v = v ↔ ¬ ['\\', 'n'] <:+: v := by
  rw [misread, render_eq_self_iff]
  simp

/-! ## Lines -/

/-- A variable name: no `=`, no `#`, no quotes and no white space. -/
structure VariableName where
  text : Str
  plain : ∀ c ∈ text,
    c ≠ '=' ∧ c ≠ '#' ∧ c ≠ '"' ∧ c ≠ '\'' ∧ Str.isWhitespace c = false

/-- A line of a dotenv file. -/
inductive DotenvLine where
  | assignment (exported : Bool) (name : VariableName) (value : Str)
  | blank (text : Str) (isBlank : ∀ c ∈ text, Str.isWhitespace c = true ∧ c ≠ '\n')
  | comment (indent text : Str) (isBlank : ∀ c ∈ indent, Str.isWhitespace c = true ∧ c ≠ '\n')
      (oneLine : '\n' ∉ text)

/-- The text of a line. -/
def DotenvLine.text : DotenvLine → Str
  | .assignment exported name value =>
    (if exported then "export ".toList else []) ++ name.text ++ '=' :: quote value
  | .blank text _ => text
  | .comment indent text _ _ => indent ++ '#' :: text

/-- What a line assigns. -/
def DotenvLine.pair : DotenvLine → Option (Str × Str)
  | .assignment _ name value => some (name.text, value)
  | .blank _ _ => none
  | .comment _ _ _ _ => none

/-- What is read of an assignment. -/
def readPair (p : Str × Str) : Option (Str × Str) :=
  if p.1 = [] then none else some (p.1, misread p.2)

theorem getLast?_quote (pre v : Str) : (pre ++ '=' :: quote v).getLast? = some '"' := by
  rw [List.getLast?_append_cons, quote]
  exact List.getLast?_concat (l := '=' :: '"' :: escape v)

theorem trim_quote (v : Str) : Str.trim (quote v) = quote v := by
  have hstart : Str.trimStart (quote v) = quote v := Str.trimStart_eq_self fun c hc => by
    obtain rfl : '"' = c := by simpa [quote] using hc
    decide
  rw [Str.trim, hstart]
  refine Str.trimEnd_eq_self fun c hc => ?_
  rw [quote, List.getLast?_concat] at hc
  obtain rfl := Option.some.inj hc
  decide

/-- What an assignment is read as, from its parts. -/
theorem parseDotenvLine_of_assignment {line left right : Str}
    (hcomment : (Str.trim line).head? ≠ some '#') (h : assignmentOf line = left ++ '=' :: right)
    (hleft : '=' ∉ left) : parseDotenvLine line =
      if Str.trim left = [] then none else some (Str.trim left, unquote (Str.trim right)) := by
  have hline : Str.trim line ≠ [] := by
    intro hnil
    unfold assignmentOf at h
    rw [hnil] at h
    cases left <;> cases h
  unfold assignmentOf at h
  unfold parseDotenvLine
  dsimp only
  rw [if_neg (by simp [hline, hcomment]), h, Str.splitOnce_append hleft]

theorem VariableName.head_ne (name : VariableName) (rest : Str) (c : Char)
    (hc : (name.text ++ '=' :: rest).head? = some c) : Str.isWhitespace c = false ∧ c ≠ '#' := by
  cases htext : name.text with
  | nil =>
    rw [htext] at hc
    obtain rfl : '=' = c := by simpa using hc
    decide
  | cons d text =>
    rw [htext] at hc
    obtain rfl : d = c := by simpa using hc
    have := name.plain d (by simp [htext])
    exact ⟨this.2.2.2.2, this.2.1⟩

theorem VariableName.trim_text (name : VariableName) : Str.trim name.text = name.text := by
  have hplain : ∀ c ∈ name.text, Str.isWhitespace c = false := fun c hc => (name.plain c hc).2.2.2.2
  rw [Str.trim, Str.trimStart_eq_self fun c hc => hplain c (List.mem_of_head? hc),
    Str.trimEnd_eq_self fun c hc => hplain c (List.mem_of_getLast? hc)]

theorem VariableName.not_export (name : VariableName) (rest : Str) :
    ¬ "export ".toList <+: name.text ++ '=' :: rest := by
  refine not_export_of_name (fun hstarts => ?_)
  have hblank : ' ' ∈ name.text := hstarts.subset (by decide)
  exact absurd (name.plain ' ' hblank).2.2.2.2 (by decide)

/-- **An assignment** is read as its name and what becomes of its value. -/
theorem parseDotenvLine_assignment (exported : Bool) (name : VariableName) (value : Str) :
    parseDotenvLine (DotenvLine.assignment exported name value).text =
      readPair (name.text, value) := by
  have hstart : Str.trimStart (name.text ++ '=' :: quote value) =
      name.text ++ '=' :: quote value :=
    Str.trimStart_eq_self fun c hc => (name.head_ne _ c hc).1
  have hlast : ∀ pre : Str,
      Str.trimEnd (pre ++ '=' :: quote value) = pre ++ '=' :: quote value := by
    intro pre
    refine Str.trimEnd_eq_self fun c hc => ?_
    rw [getLast?_quote] at hc
    obtain rfl := Option.some.inj hc
    decide
  have hleft : '=' ∉ name.text := fun hmem => (name.plain '=' hmem).1 rfl
  have hparts : (Str.trim (DotenvLine.assignment exported name value).text).head? ≠ some '#' ∧
      assignmentOf (DotenvLine.assignment exported name value).text =
        name.text ++ '=' :: quote value := by
    cases exported with
    | false =>
      have htrim :
          Str.trim (name.text ++ '=' :: quote value) = name.text ++ '=' :: quote value := by
        rw [Str.trim, hstart, hlast]
      have hstrip : Str.stripPrefix "export ".toList (name.text ++ '=' :: quote value) = none := by
        rw [Str.stripPrefix, if_neg]
        rw [List.isPrefixOf_iff_prefix]
        exact name.not_export _
      have hline : (DotenvLine.assignment false name value).text =
          name.text ++ '=' :: quote value := rfl
      rw [hline, assignmentOf, htrim, hstrip, Option.getD_none, hstart]
      exact ⟨fun hhead => (name.head_ne _ '#' hhead).2 rfl, rfl⟩
    | true =>
      have htrim : Str.trim ("export ".toList ++ name.text ++ '=' :: quote value) =
          "export ".toList ++ name.text ++ '=' :: quote value := by
        have hfirst : Str.trimStart ("export ".toList ++ name.text ++ '=' :: quote value) =
            "export ".toList ++ name.text ++ '=' :: quote value :=
          Str.trimStart_eq_self fun c hc => by
            obtain rfl : 'e' = c := by simpa using hc
            decide
        rw [Str.trim, hfirst, hlast]
      have hstrip : Str.stripPrefix "export ".toList
          ("export ".toList ++ name.text ++ '=' :: quote value) =
            some (name.text ++ '=' :: quote value) := by
        rw [List.append_assoc, Str.stripPrefix, if_pos, List.drop_left]
        rw [List.isPrefixOf_iff_prefix]
        exact List.prefix_append _ _
      have hline : (DotenvLine.assignment true name value).text =
          "export ".toList ++ name.text ++ '=' :: quote value := rfl
      rw [hline, assignmentOf, htrim, hstrip, Option.getD_some, hstart]
      exact ⟨by simp, rfl⟩
  rw [parseDotenvLine_of_assignment hparts.1 hparts.2 hleft, name.trim_text, trim_quote,
    unquote_quote, readPair]

theorem trimStart_blank {text : Str} (h : ∀ c ∈ text, Str.isWhitespace c = true) (rest : Str) :
    Str.trimStart (text ++ rest) = Str.trimStart rest := by
  rw [Str.trimStart, Str.trimStart, List.dropWhile_append_of_pos h]

/-- Nothing is read of a blank line. -/
theorem parseDotenvLine_blank {text : Str} (h : ∀ c ∈ text, Str.isWhitespace c = true) :
    parseDotenvLine text = none := by
  have htrim : Str.trim text = [] := by
    rw [Str.trim, ← List.append_nil text, trimStart_blank h]
    rfl
  unfold parseDotenvLine
  dsimp only
  rw [if_pos (.inl htrim)]

/-- Nothing is read of a comment. -/
theorem parseDotenvLine_comment {indent : Str} (h : ∀ c ∈ indent, Str.isWhitespace c = true)
    (text : Str) : parseDotenvLine (indent ++ '#' :: text) = none := by
  have htrim : (Str.trim (indent ++ '#' :: text)).head? = some '#' := by
    rw [Str.trim, trimStart_blank h, Str.trimStart_eq_self fun c hc => by
      obtain rfl : '#' = c := by simpa using hc
      decide, Str.trimEnd_cons (by decide)]
    rfl
  unfold parseDotenvLine
  dsimp only
  rw [if_pos (.inr htrim)]

/-! ## Files -/

/-- A carriage return at the end of a line has no part in what is read. -/
theorem parseDotenvLine_stripCr (line : Str) :
    parseDotenvLine (Str.stripCr line) = parseDotenvLine line := by
  unfold Str.stripCr
  split
  · rename_i hlast
    obtain ⟨front, rfl⟩ := List.getLast?_eq_some_iff.mp hlast
    have htrim : Str.trim (front ++ ['\r']) = Str.trim front := Str.trim_concat (by decide)
    rw [List.dropLast_concat]
    unfold parseDotenvLine
    rw [htrim]
  · rfl

/-- A line is read as what it assigns. -/
theorem parseDotenvLine_text (l : DotenvLine) :
    parseDotenvLine l.text = l.pair.bind readPair := by
  cases l with
  | assignment exported name value => exact parseDotenvLine_assignment exported name value
  | blank text isBlank => exact parseDotenvLine_blank fun c hc => (isBlank c hc).1
  | comment indent text isBlank => exact parseDotenvLine_comment (fun c hc => (isBlank c hc).1) text

theorem newline_not_mem_escape (v : Str) : '\n' ∉ escape v := by
  intro h
  obtain ⟨c, _, hc⟩ := List.mem_flatMap.mp h
  unfold escapeChar at hc
  split at hc
  · simp at hc
  · split at hc
    · simp at hc
    · split at hc
      · simp at hc
      · rename_i hne
        exact hne (List.mem_singleton.mp hc).symm

theorem DotenvLine.oneLine (l : DotenvLine) : '\n' ∉ l.text := by
  cases l with
  | assignment exported name value =>
    have hname : '\n' ∉ name.text := fun h =>
      absurd (name.plain '\n' h).2.2.2.2 (by decide)
    have hvalue := newline_not_mem_escape value
    cases exported <;> simp [text, quote, hname, hvalue]
  | blank text isBlank => exact fun h => (isBlank '\n' h).2 rfl
  | comment indent text isBlank oneLine =>
    have hindent : '\n' ∉ indent := fun h => (isBlank '\n' h).2 rfl
    simp [DotenvLine.text, hindent, oneLine]

/-- A file: lines that are ended, and one that may be left open at the end. -/
def dotenvFile (ls : List DotenvLine) (last : Option DotenvLine) : Str :=
  (ls.map DotenvLine.text).flatMap (· ++ ['\n']) ++ (last.map DotenvLine.text).getD []

/-- What the lines of a file assign, in order. -/
def dotenvPairs (ls : List DotenvLine) (last : Option DotenvLine) : List (Str × Str) :=
  (ls ++ last.toList).filterMap DotenvLine.pair

/-- A file is read as its pairs are read. -/
theorem parseDotenv_dotenvFile (ls : List DotenvLine) (last : Option DotenvLine) :
    parseDotenv (dotenvFile ls last) = (dotenvPairs ls last).filterMap readPair := by
  have hlines : ∀ l ∈ ls.map DotenvLine.text, '\n' ∉ l := by
    intro l hl
    obtain ⟨d, _, rfl⟩ := List.mem_map.mp hl
    exact d.oneLine
  have hended : ((ls.map DotenvLine.text).map Str.stripCr).filterMap parseDotenvLine =
      ls.filterMap fun l => l.pair.bind readPair := by
    rw [List.filterMap_map, List.filterMap_map]
    refine List.filterMap_congr fun l _ => ?_
    exact (parseDotenvLine_stripCr l.text).trans (parseDotenvLine_text l)
  have hopen : (Str.lines ((last.map DotenvLine.text).getD [])).filterMap parseDotenvLine =
      last.toList.filterMap fun l => l.pair.bind readPair := by
    cases last with
    | none => rfl
    | some l =>
      rw [Option.map_some, Option.getD_some, Str.lines_of_notMem l.oneLine, Option.toList_some,
        List.filterMap_cons, ← parseDotenvLine_text]
      split
      · rename_i hnil
        rw [hnil]
        rfl
      · rfl
  rw [parseDotenv, dotenvFile, Str.lines_flatMap_append hlines, List.filterMap_append, hended,
    hopen, ← List.filterMap_append, dotenvPairs, List.filterMap_filterMap]

theorem readPair_eq_self_iff (p : Str × Str) :
    readPair p = some p ↔ p.1 ≠ [] ∧ ¬ ['\\', 'n'] <:+: p.2 := by
  rw [← misread_eq_self_iff]
  unfold readPair
  split
  · rename_i hname
    simp [hname]
  · rename_i hname
    rw [Option.some.injEq, Prod.ext_iff]
    simp [hname]

/-- **Quoted values decode to what was encoded** if and only if every name is
there and no value has a backslash before an `n`. This is for any file of
assignments with quoted values, blank lines and comments, a single line being
the case without ended lines. -/
theorem quoted_values_restored_iff (ls : List DotenvLine) (last : Option DotenvLine) :
    parseDotenv (dotenvFile ls last) = dotenvPairs ls last ↔
      ∀ p ∈ dotenvPairs ls last, p.1 ≠ [] ∧ ¬ ['\\', 'n'] <:+: p.2 := by
  rw [parseDotenv_dotenvFile]
  constructor
  · intro h p hp
    have hread := Elementwise.eq_some_of_filterMap_eq_map (h.trans (List.map_id _).symm) p hp
    exact (readPair_eq_self_iff p).mp hread
  · intro h
    refine (List.filterMap_congr fun p hp => ?_).trans List.filterMap_some
    exact (readPair_eq_self_iff p).mpr (h p hp)

/-- The variable `DIR`. -/
def dirName : VariableName where
  text := "DIR".toList
  plain := by simp; decide

/-- `C:\new` is read as two lines. -/
theorem windows_path_not_restored :
    ¬ ∀ (exported : Bool) (name : VariableName) (value : Str),
      parseDotenv (DotenvLine.assignment exported name value).text = [(name.text, value)] := by
  intro h
  exact absurd (h false dirName "C:\\new".toList) (by decide)

end HearthVault
