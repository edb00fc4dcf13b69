/-
HearthVault.Cli.DotenvTheorems — which variables survive being written to a
dotenv file and read back.

`export-env-file` writes values as they are, one `NAME=value` after the other,
and `import-env` reads lines. What comes back is what was written exactly where
every assignment is one line that the parser takes apart where it was put
together (`CarriedName`, `CarriedValue`).

The parser never makes a line longer (`parseDotenvLine_length_le`). So if the
pairs come back there is no room for anything else: no line break within a
value, nothing trimmed, nothing unquoted.
-/
import HearthVault.Cli.SinkTheorems

namespace HearthVault

open Files Elementwise

/-! ## One line -/

/-- A name that a line can carry. -/
structure CarriedName (name : Str) : Prop where
  nonempty : name ≠ []
  noEquals : '=' ∉ name
  trimmed : Str.trim name = name
  noComment : name.head? ≠ some '#'
  noExport : ¬"export ".toList <+: name

/-- A value that a line can carry: without blanks or quotes around it. -/
structure CarriedValue (value : Str) : Prop where
  trimmed : Str.trim value = value
  unquoted : unquote value = value

/-- A value keeps itself or loses its quotes. -/
theorem unquote_cases (value : Str) :
    unquote value = value ∨ (unquote value).length < value.length := by
  have hinner : ∀ q : Char, (decide (2 ≤ value.length) && value.head? == some q &&
      value.getLast? == some q) = true → value.tail.dropLast.length < value.length := by
    intro q hq
    simp only [Bool.and_eq_true, decide_eq_true_iff] at hq
    rw [List.length_dropLast, List.length_tail]
    omega
  unfold unquote
  dsimp only
  split
  · rename_i hquoted
    refine .inr (lt_of_le_of_lt ?_ (hinner _ hquoted))
    exact (Str.replace_length_le (by decide) _).trans
      ((Str.replace_length_le (by decide) _).trans (Str.replace_length_le (by decide) _))
  · split
    · rename_i hquoted
      exact .inr (hinner _ hquoted)
    · exact .inl rfl

theorem unquote_length_le (value : Str) : (unquote value).length ≤ value.length := by
  obtain h | h := unquote_cases value
  · rw [h]
  · exact h.le

/-- What is left of a line after `export`. -/
def assignmentOf (line : Str) : Str :=
  Str.trimStart ((Str.stripPrefix "export ".toList (Str.trim line)).getD (Str.trim line))

/-- What a line that is an assignment consists of. -/
theorem parseDotenvLine_eq_some {line name value : Str} :
    parseDotenvLine line = some (name, value) ↔ ∃ left right,
      (Str.trim line).head? ≠ some '#' ∧
      assignmentOf line = left ++ '=' :: right ∧ '=' ∉ left ∧
      name = Str.trim left ∧ name ≠ [] ∧ value = unquote (Str.trim right) := by
  unfold parseDotenvLine assignmentOf
  dsimp only
  constructor
  · intro h
    split at h
    · cases h
    · rename_i hline
      obtain ⟨-, hcomment⟩ := not_or.mp hline
      split at h
      · cases h
      · rename_i left right hsplit
        obtain ⟨heq, hnot⟩ := Str.splitOnce_eq_some hsplit
        split at h
        · cases h
        · rename_i hname
          cases h
          exact ⟨left, right, hcomment, heq, hnot, rfl, hname, rfl⟩
  · rintro ⟨left, right, hcomment, heq, hnot, rfl, hname, rfl⟩
    have hline : Str.trim line ≠ [] := by
      intro hnil
      rw [hnil] at heq
      cases left <;> cases heq
    rw [if_neg (by simp [hline, hcomment]), heq, Str.splitOnce_append hnot]
    dsimp only
    rw [if_neg hname]

theorem assignmentOf_sublist (line : Str) : (assignmentOf line).Sublist line :=
  (Str.trimStart_sublist _).trans ((Str.stripPrefix_sublist _ _).trans (Str.trim_sublist line))

/-- An assignment is no longer than its line. -/
theorem parseDotenvLine_length_le {line name value : Str}
    (h : parseDotenvLine line = some (name, value)) :
    name.length + value.length + 1 ≤ line.length := by
  obtain ⟨left, right, -, heq, -, rfl, -, rfl⟩ := parseDotenvLine_eq_some.mp h
  have hline := (assignmentOf_sublist line).length_le
  rw [heq, List.length_append, List.length_cons] at hline
  have hleft := (Str.trim_sublist left).length_le
  have hright := (unquote_length_le (Str.trim right)).trans (Str.trim_sublist right).length_le
  omega

/-- A line that is an assignment as it is. -/
theorem assignmentOf_eq_self {line : Str} (h : line.length ≤ (assignmentOf line).length) :
    assignmentOf line = line ∧ Str.trim line = line ∧ ¬"export ".toList <+: line := by
  have hstart := (Str.trimStart_sublist
    ((Str.stripPrefix "export ".toList (Str.trim line)).getD (Str.trim line))).length_le
  have hstrip := (Str.stripPrefix_sublist "export ".toList (Str.trim line)).length_le
  have htrim : Str.trim line = line :=
    (Str.trim_sublist line).eq_of_length_le (h.trans (hstart.trans hstrip))
  have hstarts : ¬"export ".toList <+: line := by
    intro hstarts
    have hshort : ((Str.stripPrefix "export ".toList line).getD line).length < line.length := by
      have hlen := hstarts.length_le
      rw [Str.stripPrefix, if_pos (List.isPrefixOf_iff_prefix.mpr hstarts), Option.getD_some,
        List.length_drop]
      rw [show "export ".toList.length = 7 by decide] at hlen ⊢
      omega
    rw [htrim] at hstart
    rw [assignmentOf, htrim] at h
    omega
  refine ⟨?_, htrim, hstarts⟩
  have hnone : (Str.stripPrefix "export ".toList line).getD line = line := by
    rw [Str.stripPrefix, if_neg (by rwa [List.isPrefixOf_iff_prefix])]
    rfl
  rw [assignmentOf, htrim, hnone] at h ⊢
  exact (Str.trimStart_sublist line).eq_of_length_le h

theorem CarriedValue.last_of_line {value : Str} (h : CarriedValue value) (name : Str) :
    ∀ c, (name ++ '=' :: value).getLast? = some c → Str.isWhitespace c = false := by
  intro c hc
  rw [List.getLast?_append_cons] at hc
  cases value with
  | nil =>
    cases hc
    decide
  | cons y value =>
    rw [List.getLast?_cons_cons] at hc
    exact (Str.ends_of_trim h.trimmed).2 c hc

/-- The word `export` of an assignment belongs to its name. -/
theorem not_export_of_name {name rest : Str} (h : ¬"export ".toList <+: name) :
    ¬"export ".toList <+: name ++ '=' :: rest := by
  intro hstarts
  obtain hpre | ⟨tail, htail⟩ :=
    List.prefix_or_prefix_of_prefix hstarts (List.prefix_append name ('=' :: rest))
  · exact h hpre
  · rw [← htail, List.prefix_append_right_inj] at hstarts
    cases tail with
    | nil => exact h (by rw [← htail, List.append_nil])
    | cons x tail =>
      have hequals : '=' ∈ "export ".toList := by
        rw [← htail, (List.cons_prefix_cons.mp hstarts).1]
        simp
      exact absurd hequals (by decide)

/-- A line that an assignment fills. -/
theorem parseDotenvLine_eq_self_iff {name value : Str} :
    parseDotenvLine (name ++ '=' :: value) = some (name, value) ↔
      CarriedName name ∧ CarriedValue value := by
  constructor
  · intro h
    obtain ⟨left, right, hcomment, heq, hnot, hname, hne, hvalue⟩ := parseDotenvLine_eq_some.mp h
    have hleft := (Str.trim_sublist left).length_le
    have hright := (Str.trim_sublist right).length_le
    have hquotes := unquote_length_le (Str.trim right)
    rw [← hname] at hleft
    rw [← hvalue] at hquotes
    -- Nothing of the line may be lost on the way.
    have hline : (name ++ '=' :: value).length ≤ (assignmentOf (name ++ '=' :: value)).length := by
      rw [heq]
      simp only [List.length_append, List.length_cons]
      omega
    obtain ⟨hassignment, htrim, hexport⟩ := assignmentOf_eq_self hline
    rw [hassignment] at heq
    have hlength := congrArg List.length heq
    simp only [List.length_append, List.length_cons] at hlength
    obtain ⟨rfl, hrest⟩ := List.append_inj heq (by omega)
    obtain rfl := (List.cons.inj hrest).2
    have htrimmed : Str.trim value = value :=
      (Str.trim_sublist value).eq_of_length_le (by omega)
    refine ⟨⟨hne, hnot, hname.symm, ?_, fun hstarts => ?_⟩, htrimmed, ?_⟩
    · rw [htrim] at hcomment
      cases name with
      | nil => exact absurd rfl hne
      | cons c name => exact hcomment
    · exact hexport (hstarts.trans (List.prefix_append name _))
    · rw [htrimmed] at hvalue
      exact hvalue.symm
  · rintro ⟨hname, hvalue⟩
    obtain ⟨c, rest, rfl⟩ := List.exists_cons_of_ne_nil hname.nonempty
    have hhead : ∀ x, (c :: rest ++ '=' :: value).head? = some x → Str.isWhitespace x = false :=
      (Str.ends_of_trim hname.trimmed).1
    have hstart := Str.trimStart_eq_self hhead
    have htrim : Str.trim (c :: rest ++ '=' :: value) = c :: rest ++ '=' :: value := by
      rw [Str.trim, hstart, Str.trimEnd_eq_self (hvalue.last_of_line _)]
    have hstrip : ¬"export ".toList <+: c :: rest ++ '=' :: value :=
      not_export_of_name hname.noExport
    refine parseDotenvLine_eq_some.mpr ⟨c :: rest, value, ?_, ?_, hname.noEquals,
      hname.trimmed.symm, hname.nonempty, ?_⟩
    · rw [htrim]
      exact hname.noComment
    · rw [assignmentOf, htrim, Str.stripPrefix, if_neg (by rwa [List.isPrefixOf_iff_prefix]),
        Option.getD_none, hstart]
    · rw [hvalue.trimmed, hvalue.unquoted]

/-! ## The file -/

/-- The line of an assignment. -/
def assignmentLine (p : Str × Str) : Str :=
  p.1 ++ '=' :: p.2

/-- Assignments, one line after the other. -/
def writeDotenv (pairs : List (Str × Str)) : Str :=
  (pairs.map assignmentLine).flatMap (· ++ ['\n'])

/-- An assignment that a dotenv file can carry. -/
structure Carried (p : Str × Str) : Prop where
  name : CarriedName p.1
  value : CarriedValue p.2
  oneLine : '\n' ∉ assignmentLine p

/-- What all lines of a text assign fits into the text without its line breaks. -/
theorem sum_parseDotenv_le (contents : Str) :
    ((parseDotenv contents).map fun p => p.1.length + p.2.length + 1).sum ≤
      (contents.filter (· ≠ '\n')).length := by
  refine le_trans ?_ (Str.sum_length_lines contents)
  unfold parseDotenv
  induction Str.lines contents with
  | nil => simp
  | cons line rest ih =>
    cases hparse : parseDotenvLine line with
    | none =>
      rw [List.filterMap_cons_none hparse, List.map_cons, List.sum_cons]
      omega
    | some p =>
      have hline := parseDotenvLine_length_le hparse
      rw [List.filterMap_cons_some hparse, List.map_cons, List.sum_cons, List.map_cons,
        List.sum_cons]
      omega

/-- Texts that are as long without a character do not have it. -/
theorem notMem_of_sum_length_le {c : Char} {ls : List Str}
    (h : (ls.map List.length).sum ≤ (ls.map fun l => (l.filter (· ≠ c)).length).sum) :
    ∀ l ∈ ls, c ∉ l := by
  have hle : ∀ l : Str, (l.filter (· ≠ c)).length ≤ l.length := fun l => List.length_filter_le _ l
  induction ls with
  | nil => exact nofun
  | cons l ls ih =>
    have hrest : (ls.map fun l => (l.filter (· ≠ c)).length).sum ≤ (ls.map List.length).sum := by
      clear ih h
      induction ls with
      | nil => simp
      | cons l ls ih =>
        have := hle l
        simp only [List.map_cons, List.sum_cons]
        omega
    simp only [List.map_cons, List.sum_cons] at h
    have hl := hle l
    intro l' hl' hmem
    obtain rfl | hl' := List.mem_cons.mp hl'
    · have hall :=
        List.length_filter_eq_length_iff.mp (show (l'.filter (· ≠ c)).length = l'.length by omega)
      exact absurd (hall c hmem) (by simp)
    · exact ih (by omega) l' hl' hmem

/-- Assignments that are written come back as they are if and only if the file
can carry each. -/
theorem parseDotenv_writeDotenv_iff {pairs : List (Str × Str)} :
    parseDotenv (writeDotenv pairs) = pairs ↔ ∀ p ∈ pairs, Carried p := by
  have hread : (∀ p ∈ pairs, '\n' ∉ assignmentLine p) → parseDotenv (writeDotenv pairs) =
      pairs.filterMap fun p => parseDotenvLine (Str.stripCr (assignmentLine p)) := by
    intro hlines
    have hlines' : ∀ l ∈ pairs.map assignmentLine, '\n' ∉ l := by
      intro l hl
      obtain ⟨p, hp, rfl⟩ := List.mem_map.mp hl
      exact hlines p hp
    rw [parseDotenv, writeDotenv, Str.lines_flatMap hlines', List.filterMap_map, List.filterMap_map]
    rfl
  constructor
  · intro h
    have hsum := sum_parseDotenv_le (writeDotenv pairs)
    have hwritten : ((writeDotenv pairs).filter (· ≠ '\n')).length =
        ((pairs.map assignmentLine).map fun l => (l.filter (· ≠ '\n')).length).sum := by
      simp [writeDotenv, List.filter_flatMap, List.length_flatMap, Function.comp_def]
    have hlengths : (pairs.map fun p => p.1.length + p.2.length + 1).sum =
        ((pairs.map assignmentLine).map List.length).sum := by
      simp [assignmentLine, Function.comp_def, Nat.add_assoc]
    rw [h, hwritten, hlengths] at hsum
    have hlines : ∀ p ∈ pairs, '\n' ∉ assignmentLine p := fun p hp =>
      notMem_of_sum_length_le hsum _ (List.mem_map_of_mem hp)
    intro p hp
    rw [hread hlines] at h
    have hline := eq_some_of_filterMap_eq_map (h.trans (List.map_id pairs).symm) p hp
    have hstrip : Str.stripCr (assignmentLine p) = assignmentLine p := by
      have hle := parseDotenvLine_length_le hline
      refine (Str.stripCr_sublist _).eq_of_length_le (le_trans ?_ hle)
      rw [assignmentLine, List.length_append, List.length_cons]
      rfl
    rw [hstrip] at hline
    obtain ⟨hname, hvalue⟩ := parseDotenvLine_eq_self_iff.mp hline
    exact ⟨hname, hvalue, hlines p hp⟩
  · intro h
    rw [hread fun p hp => (h p hp).oneLine]
    refine (List.filterMap_congr fun p hp => ?_).trans (List.filterMap_some)
    have hstrip : Str.stripCr (assignmentLine p) = assignmentLine p := by
      rw [Str.stripCr, if_neg fun hlast => ?_]
      exact absurd ((h p hp).value.last_of_line p.1 _ hlast) (by decide)
    rw [hstrip]
    exact parseDotenvLine_eq_self_iff.mpr ⟨(h p hp).name, (h p hp).value⟩

/-! ## export-env-file, then import-env -/

/-- The variables that `export-env-file` writes: the names and values of the
printable keys under the prefix, in key order. -/
def exportedPairs [Unicode] (body : VaultBody) (pre : Str) : List (Str × Str) :=
  (allowedEntries tierAllowsExport body pre).map fun e => (envNameFor e.1 pre, e.2.1)

theorem exportEnvFile_eq_ok [Unicode] {body : VaultBody} {pre content : Str}
    (h : exportEnvFile body pre = .ok content) :
    content = writeDotenv (exportedPairs body pre) := by
  have hlines := @collectExportLines_eq body pre _
  rw [exportEnvFile, hlines, result_ok_bind] at h
  dsimp only at h
  split at h
  · split at h <;> cases h
  · rename_i hne
    cases h
    rw [Str.join_append_sep "\n".toList (by simpa using hne)]
    simp only [writeDotenv, exportedPairs, assignmentLine, List.map_map, Function.comp_def]
    rfl

/-- What `export-env-file` writes is read back as the variables that it stands
for if and only if every one of them fits a line as it is. -/
theorem exportEnvFile_restores [Unicode] {body : VaultBody} {pre content : Str}
    (h : exportEnvFile body pre = .ok content) :
    parseDotenv content = exportedPairs body pre ↔ ∀ p ∈ exportedPairs body pre, Carried p := by
  rw [exportEnvFile_eq_ok h]
  exact parseDotenv_writeDotenv_iff

/-- A vault whose values are what a line can just carry: none at all, one that
looks like a comment, one with an equals sign and blanks within, a quote alone,
and quotes that do not match. -/
def plainKeys : VaultBody :=
  ([("app/e", ""), ("app/h", "#x"), ("app/k-1", "a b=c"), ("app/q", "\""),
    ("app/z", "'a\"")] : List (String × String)).foldl
    (fun body p => body.insert p.1.toList ⟨p.2.toList, 2, [], [], none, none⟩) ∅

theorem exportEnvFile_restores_plain :
    letI := asciiUppercase
    parseDotenv "E=\nH=#x\nK_1=a b=c\nQ=\"\nZ='a\"\n".toList =
      exportedPairs plainKeys "app/".toList := by
  let _ := asciiUppercase
  have hpairs : exportedPairs plainKeys "app/".toList =
      ([("E", ""), ("H", "#x"), ("K_1", "a b=c"), ("Q", "\""), ("Z", "'a\"")] :
        List (String × String)).map fun p => (p.1.toList, p.2.toList) := by decide
  have hcarried : ∀ p ∈ exportedPairs plainKeys "app/".toList,
      (p.1 ≠ [] ∧ '=' ∉ p.1 ∧ Str.trim p.1 = p.1 ∧ p.1.head? ≠ some '#' ∧
        ¬"export ".toList <+: p.1) ∧
      (Str.trim p.2 = p.2 ∧ unquote p.2 = p.2) ∧ '\n' ∉ assignmentLine p := by
    rw [hpairs]
    decide
  refine (exportEnvFile_restores (show exportEnvFile _ _ = _ by decide)).mpr fun p hp => ?_
  obtain ⟨⟨hne, hequals, htrim, hcomment, hexport⟩, ⟨hvalue, hquotes⟩, hline⟩ := hcarried p hp
  exact ⟨⟨hne, hequals, htrim, hcomment, hexport⟩, ⟨hvalue, hquotes⟩, hline⟩

/-- A vault with one key, at tier 2. -/
def oneKey (value : Str) : VaultBody :=
  (∅ : VaultBody).insert "app/k".toList ⟨value, 2, [], [], none, none⟩

/-- A value of two lines sets a variable of its own. -/
theorem exportEnvFile_not_restores :
    ¬∀ (_ : Unicode) (body : VaultBody) (pre content : Str), exportEnvFile body pre = .ok content →
      ((exportedPairs body pre).map Prod.fst).Nodup →
      (∀ p ∈ exportedPairs body pre, '=' ∉ p.1 ∧ '\n' ∉ p.1 ∧ '\r' ∉ p.1 ∧ p.2 ≠ []) →
      parseDotenv content = exportedPairs body pre := by
  intro h
  have hrestored := h asciiUppercase (oneKey "1\nB=2".toList) "app/".toList
    "K=1\nB=2\n".toList (by decide) (by decide) (by decide)
  exact absurd hrestored (by decide)

end HearthVault
