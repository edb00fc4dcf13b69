/-
HearthVault.Cli.ProjectPrefix — the `.hearth-vault` marker and the prefix
that `exec` takes from it.

The marker is written as it is and read with tolerance for an older form,
`prefix = myapp/`, so a prefix that looks like that form is taken for it. For
the others `readsBack_iff` says that the tolerance changes nothing: comments,
quotes, blanks and the keyword are what a prefix does not have. A prefix that
comes back is the one `exec` uses where none is given (`exec_of_marker`).
-/
import HearthVault.Cli.Adopt
import HearthVault.Cli.Committing
import HearthVault.Cli.EnvNames
import HearthVault.Cli.StoringRuns
import HearthVault.Cli.TierTheorems

namespace HearthVault

open Files

/-! ## Reading the marker -/

/-- What makes the word `prefix` a keyword. -/
def followsKeyword (rest : Str) : Bool :=
  match rest with
  | [] => true
  | c :: _ => Str.isWhitespace c || c = '='

/-- The keyword of the older form, and its equals sign. -/
def stripKeyword (s : Str) : Str :=
  match Str.stripPrefix "prefix".toList s with
  | none => s
  | some rest =>
    if followsKeyword rest then
      let s := Str.trimStart rest
      match Str.stripPrefix "=".toList s with
      | none => s
      | some rest => Str.trimStart rest
    else s

/-- Surrounding quotes; the first and the last byte are looked at. -/
def stripQuotes (s : Str) : Str :=
  let bytes := Str.utf8 s
  if 2 ≤ bytes.length ∧
      ((bytes.head? = some 34 ∧ bytes.getLast? = some 34) ∨
        (bytes.head? = some 39 ∧ bytes.getLast? = some 39)) then
    s.tail.dropLast
  else s

/-- `parse_project_prefix_line`. -/
def parseProjectPrefixLine (line : Str) : Str :=
  Str.trim (stripQuotes (Str.trim (stripKeyword (Str.trim line))))

def markerName : Str :=
  ".hearth-vault".toList

/-- The prefix in a marker file. -/
def projectPrefix (content : Str) : Option Str :=
  (((Str.lines content).map Str.trim).find? fun l => l ≠ [] ∧ l.head? ≠ some '#').map
    parseProjectPrefixLine |>.filter (· ≠ [])

def usablePrefix (marker : Path) (content : Str) : Result Str :=
  match projectPrefix content with
  | some p => .ok p
  | none => bail s!"{String.ofList marker.display} has no usable prefix line"

/-- `find_project_marker_from`; `dirs` are the directories from the one to
start at upwards. -/
def findProjectMarkerFrom : List Str → Prog (Option Path)
  | [] => pure none
  | dir :: dirs => do
    if ← Fx.pathExists ⟨dir, markerName⟩ then pure (some ⟨dir, markerName⟩)
    else findProjectMarkerFrom dirs

section Commands

variable [JsonText]

/-- `read_project_prefix`. -/
def readProjectPrefix (marker : Path) : Prog Str := do
  let content ← readText marker
  Fx.ofResult (usablePrefix marker content)

/-- `resolve_prefix`: the flag, the variable `HEARTH_VAULT_PREFIX`, or the
nearest marker. -/
def resolvePrefix (explicit envPrefix : Option Str) (dirs : List Str) : Prog Str :=
  match explicit, envPrefix.filter (· ≠ []) with
  | some p, _ => pure p
  | none, some p => pure p
  | none, none => do
    match ← findProjectMarkerFrom dirs with
    | some marker => readProjectPrefix marker
    | none => Fx.ofResult (bail ("no prefix given and none discoverable — pass --prefix " ++
        "<name>/, set $HEARTH_VAULT_PREFIX, or create a project marker: " ++
        "`echo \"<name>/\" > .hearth-vault`"))

/-- `cmd_exec` up to the environment that the child gets. -/
def cmdExec [Unicode] (path : Path) (unlock : Unlock) (explicit envPrefix : Option Str)
    (dirs : List Str) (program : Str) (inherited : List Str) : Prog (List Str) := do
  let pre ← resolvePrefix explicit envPrefix dirs
  let store ← openVault path unlock
  Fx.ofResult (childEnv store.body pre program inherited)

end Commands

/-! ## Prefixes -/

/-- A text between two quotes of one kind. -/
def Quoted (s : Str) : Prop :=
  ∃ q inner, (q = '"' ∨ q = '\'') ∧ s = q :: (inner ++ [q])

/-- A prefix for a marker: one line without blanks around it, that is no
comment and not quoted. -/
structure MarkerPrefix (pre : Str) : Prop where
  nonempty : pre ≠ []
  line : '\n' ∉ pre
  trimmed : Str.trim pre = pre
  notComment : pre.head? ≠ some '#'
  notQuoted : ¬Quoted pre

/-- The older form: the word `prefix`, at the end or before a blank or an
equals sign. -/
def KeywordForm (pre : Str) : Prop :=
  ∃ rest, pre = "prefix".toList ++ rest ∧ followsKeyword rest = true

/-! ## Quotes and bytes -/

/-- The byte of an ASCII character stands for that character only. -/
theorem eq_of_mem_utf8EncodeChar {q c : Char} (hq : q.toNat < 128)
    (h : UInt8.ofNat q.toNat ∈ String.utf8EncodeChar c) : c = q := by
  obtain ⟨hlow, hbytes⟩ | ⟨-, -, hbytes⟩ := Str.utf8EncodeChar_cases c
  · rw [hbytes, List.mem_singleton, ← UInt8.toNat_inj, UInt8.toNat_ofNat',
      UInt8.toNat_ofNat'] at h
    refine Char.ext (UInt32.toNat_inj.mp ?_)
    change c.toNat = q.toNat
    omega
  · have hbyte := hbytes _ h
    rw [UInt8.toNat_ofNat'] at hbyte
    omega

theorem head_of_utf8 {q : Char} (hq : q.toNat < 128) {s : Str}
    (h : (Str.utf8 s).head? = some (UInt8.ofNat q.toNat)) : s.head? = some q := by
  cases s with
  | nil => cases h
  | cons c s =>
    rw [Str.utf8, List.flatMap_cons,
      List.head?_append_of_ne_nil _ String.utf8EncodeChar_ne_nil] at h
    rw [List.head?_cons, eq_of_mem_utf8EncodeChar hq (List.mem_of_mem_head? h)]

theorem getLast_of_utf8 {q : Char} (hq : q.toNat < 128) {s : Str}
    (h : (Str.utf8 s).getLast? = some (UInt8.ofNat q.toNat)) : s.getLast? = some q := by
  obtain rfl | ⟨s, c, rfl⟩ := List.eq_nil_or_concat' s
  · cases h
  · rw [Str.utf8, List.flatMap_append, List.flatMap_singleton,
      List.getLast?_append_of_ne_nil _ String.utf8EncodeChar_ne_nil] at h
    rw [List.getLast?_concat, eq_of_mem_utf8EncodeChar hq (List.mem_of_getLast? h)]

theorem quoted_of_ends {q : Char} {s : Str} (hq : q = '"' ∨ q = '\'')
    (hlen : 2 ≤ (Str.utf8 s).length) (hhead : (Str.utf8 s).head? = some (UInt8.ofNat q.toNat))
    (hlast : (Str.utf8 s).getLast? = some (UInt8.ofNat q.toNat)) : Quoted s := by
  have hascii : q.toNat < 128 := by obtain rfl | rfl := hq <;> decide
  obtain ⟨t, rfl⟩ := List.head?_eq_some_iff.mp (head_of_utf8 hascii hhead)
  have hend := getLast_of_utf8 hascii hlast
  obtain rfl | ⟨inner, d, rfl⟩ := List.eq_nil_or_concat' t
  · obtain rfl | rfl := hq <;> exact absurd hlen (by decide)
  · rw [← List.cons_append, List.getLast?_concat, Option.some_inj] at hend
    subst hend
    exact ⟨_, inner, hq, rfl⟩

theorem not_quoted_of_head {c : Char} {s : Str} (h : c ≠ '"' ∧ c ≠ '\'') : ¬Quoted (c :: s) := by
  rintro ⟨q, inner, rfl | rfl, heq⟩
  · exact h.1 (List.cons.inj heq).1
  · exact h.2 (List.cons.inj heq).1

theorem stripQuotes_eq_self {s : Str} (h : ¬Quoted s) : stripQuotes s = s := by
  refine if_neg ?_
  rintro ⟨hlen, ⟨hhead, hlast⟩ | ⟨hhead, hlast⟩⟩
  · exact h (quoted_of_ends (q := '"') (.inl rfl) hlen hhead hlast)
  · exact h (quoted_of_ends (q := '\'') (.inr rfl) hlen hhead hlast)

theorem stripQuotes_sublist (s : Str) : (stripQuotes s).Sublist s := by
  unfold stripQuotes
  dsimp only
  split
  · exact (List.dropLast_sublist _).trans (List.tail_sublist s)
  · exact List.Sublist.refl s

/-! ## Reading back -/

variable {pre : Str}

theorem stripKeyword_eq_self (h : ¬KeywordForm pre) : stripKeyword pre = pre := by
  unfold stripKeyword
  split
  · rfl
  · rename_i rest hrest
    unfold Str.stripPrefix at hrest
    split at hrest
    · rename_i hpre
      cases hrest
      obtain ⟨rest, rfl⟩ := List.isPrefixOf_iff_prefix.mp hpre
      rw [List.drop_left, if_neg fun hkey => h ⟨rest, rfl, hkey⟩]
    · cases hrest

/-- The keyword is gone. -/
theorem length_stripKeyword_lt (h : KeywordForm pre) : (stripKeyword pre).length < pre.length := by
  obtain ⟨rest, rfl, hkey⟩ := h
  have hstrip : Str.stripPrefix "prefix".toList ("prefix".toList ++ rest) = some rest := by
    rw [Str.stripPrefix, if_pos (List.isPrefixOf_iff_prefix.mpr (List.prefix_append _ _)),
      List.drop_left]
  have hword : "prefix".toList.length = 6 := by decide
  have hrest := (Str.trimStart_sublist rest).length_le
  rw [stripKeyword, hstrip, List.length_append, hword]
  dsimp only
  rw [if_pos hkey]
  have hassign := (Str.stripPrefix_sublist "=".toList (Str.trimStart rest)).length_le
  split
  · omega
  · rename_i rest' heq
    have hlast := (Str.trimStart_sublist rest').length_le
    rw [heq, Option.getD_some] at hassign
    omega

theorem parseProjectPrefixLine_iff (h : MarkerPrefix pre) :
    parseProjectPrefixLine pre = pre ↔ ¬KeywordForm pre := by
  constructor
  · intro hparse hkey
    have hlen := length_stripKeyword_lt hkey
    have htrim := (Str.trim_sublist (stripKeyword pre)).length_le
    have hquotes := (stripQuotes_sublist (Str.trim (stripKeyword pre))).length_le
    have hlast := (Str.trim_sublist (stripQuotes (Str.trim (stripKeyword pre)))).length_le
    rw [parseProjectPrefixLine, h.trimmed] at hparse
    rw [hparse] at hlast
    omega
  · intro hkey
    rw [parseProjectPrefixLine, h.trimmed, stripKeyword_eq_self hkey, h.trimmed,
      stripQuotes_eq_self h.notQuoted, h.trimmed]

/-- The file that is written for a prefix. -/
theorem projectPrefix_written (h : MarkerPrefix pre) : projectPrefix (pre ++ ['\n']) =
    (some (parseProjectPrefixLine pre)).filter (· ≠ []) := by
  have hcr : pre.getLast? ≠ some '\r' := by
    intro hlast
    exact absurd ((Str.ends_of_trim h.trimmed).2 _ hlast) (by decide)
  have hlines : Str.lines (pre ++ ['\n']) = [pre] := by
    rw [Str.lines_append h.line, Str.stripCr_eq_self hcr]
    rfl
  rw [projectPrefix, hlines, List.map_singleton, h.trimmed]
  simp [h.nonempty, h.notComment]

theorem projectPrefix_iff (h : MarkerPrefix pre) :
    projectPrefix (pre ++ ['\n']) = some pre ↔ ¬KeywordForm pre := by
  rw [projectPrefix_written h, ← parseProjectPrefixLine_iff h, Option.filter_eq_some_iff]
  simp [h.nonempty]

/-! ## The commands -/

theorem usablePrefix_eq_ok {marker : Path} {content : Str} :
    usablePrefix marker content = .ok pre ↔ projectPrefix content = some pre := by
  unfold usablePrefix
  cases projectPrefix content with
  | none => simp [bail]
  | some p => simp

section Runs

variable {m : Machine} {w : Disk} {dir : Str} {below : List Str}

theorem writeProjectMarker_run (hm : m.Faultless) (marker : Path) (pre : Str) : ∃ u,
    (writeProjectMarker marker (some pre)).run m w = (.ok (), u) ∧
      u.fs = Function.update w.fs marker (some (.text (pre ++ ['\n']))) :=
  write_run hm marker _

theorem findProjectMarkerFrom_answers (hm : m.Faultless) (above : List Str)
    (hbelow : ∀ d ∈ below, w.fs ⟨d, markerName⟩ = none ∨ d = dir)
    (hdir : (w.fs ⟨dir, markerName⟩).isSome) :
    Fx.Answers m (findProjectMarkerFrom (below ++ dir :: above)) w
      (.ok (some ⟨dir, markerName⟩)) := by
  have hfound : ∀ (w : Disk) dirs, (w.fs ⟨dir, markerName⟩).isSome →
      Fx.Answers m (findProjectMarkerFrom (dir :: dirs)) w (.ok (some ⟨dir, markerName⟩)) := by
    intro w dirs hdir
    have hexists := Fx.Answers.pathExists hm (w := w) ⟨dir, markerName⟩
    rw [hdir] at hexists
    exact hexists.bind fun v _ => Fx.Answers.pure
  induction below generalizing w with
  | nil => exact hfound w above hdir
  | cons d below ih =>
    obtain ⟨hd, hrest⟩ := List.forall_mem_cons.mp hbelow
    by_cases hsame : d = dir
    · subst hsame
      exact hfound w _ hdir
    · have hexists := Fx.Answers.pathExists hm (w := w) ⟨d, markerName⟩
      rw [hd.resolve_right hsame] at hexists
      refine hexists.bind fun v hv => ?_
      refine ih (fun e he => ?_) ?_
      · rw [hv.fs _ (by simp)]
        exact hrest e he
      · rwa [hv.fs _ (by simp)]

variable [JsonText]

theorem readProjectPrefix_answers (hm : m.Faultless) {marker : Path} {content : Str}
    (h : w.fs marker = some (.text content)) :
    Fx.Answers m (readProjectPrefix marker) w (usablePrefix marker content) := by
  have hread : Fx.Answers m (readText marker) w (.ok content) := readText_answers hm h
  exact hread.bind fun v _ => Fx.Answers.ofResult

/-- A marker reads back the prefix it was written for. -/
def ReadsBack (pre : Str) : Prop :=
  ∀ (m : Machine) (w : Disk) (marker : Path), m.Faultless → ∃ u,
    (writeProjectMarker marker (some pre)).run m w = (.ok (), u) ∧
      Fx.Answers m (readProjectPrefix marker) u (.ok pre)

/-- What is written and read again. -/
theorem writeProjectMarker_read (hm : m.Faultless) (marker : Path) (pre : Str) (w : Disk) : ∃ u,
    (writeProjectMarker marker (some pre)).run m w = (.ok (), u) ∧
      Fx.Answers m (readProjectPrefix marker) u (usablePrefix marker (pre ++ ['\n'])) := by
  obtain ⟨u, hrun, hfs⟩ := writeProjectMarker_run hm (w := w) marker pre
  refine ⟨u, hrun, readProjectPrefix_answers hm ?_⟩
  rw [hfs, Function.update_self]

theorem readsBack_iff (h : MarkerPrefix pre) : ReadsBack pre ↔ ¬KeywordForm pre := by
  rw [← projectPrefix_iff h]
  constructor
  · intro hreads
    let w : Disk := ⟨fun _ => none, 0, 0, fun _ => 0⟩
    obtain ⟨u, hrun, v, hback, -⟩ := hreads .quiet w ⟨[], markerName⟩ Machine.quiet_faultless
    obtain ⟨u', hrun', v', hread, -⟩ :=
      writeProjectMarker_read Machine.quiet_faultless ⟨[], markerName⟩ pre w
    rw [hrun'] at hrun
    cases hrun
    rw [hread] at hback
    exact usablePrefix_eq_ok.mp (Prod.ext_iff.mp hback).1
  · intro husable m w marker hm
    obtain ⟨u, hrun, hanswer⟩ := writeProjectMarker_read hm marker pre w
    rw [usablePrefix_eq_ok.mpr husable] at hanswer
    exact ⟨u, hrun, hanswer⟩

theorem resolvePrefix_answers (hm : m.Faultless) (above : List Str) {envPrefix : Option Str}
    (henv : envPrefix.filter (· ≠ []) = none)
    (hbelow : ∀ d ∈ below, w.fs ⟨d, markerName⟩ = none ∨ d = dir) {content : Str}
    (hdir : w.fs ⟨dir, markerName⟩ = some (.text content))
    (husable : projectPrefix content = some pre) :
    Fx.Answers m (resolvePrefix none envPrefix (below ++ dir :: above)) w (.ok pre) := by
  have hfind := findProjectMarkerFrom_answers hm above hbelow (by simp [hdir])
  unfold resolvePrefix
  rw [henv]
  refine hfind.bind fun v hv => ?_
  rw [← usablePrefix_eq_ok.mpr husable]
  refine readProjectPrefix_answers hm ?_
  rw [hv.fs _ (by simp), hdir]

/-- A prefix that does not have the older form is read back from its marker,
and is the one that `exec` uses below the marker where it is given none: it
goes on as with the prefix given. -/
theorem exec_of_marker [Unicode] (h : MarkerPrefix pre) (hkey : ¬KeywordForm pre) :
    ReadsBack pre ∧
    ∀ (m : Machine) (w u : Disk) (dir : Str) (below above : List Str), m.Faultless →
      (∀ d ∈ below, w.fs ⟨d, markerName⟩ = none) →
      (writeProjectMarker ⟨dir, markerName⟩ (some pre)).run m w = (.ok (), u) →
      ∀ (path : Path) (unlock : Unlock) (envPrefix : Option Str) (program : Str)
        (inherited : List Str), envPrefix.filter (· ≠ []) = none → ∃ v, u.Frame ∅ v ∧
          (cmdExec path unlock none envPrefix (below ++ dir :: above) program inherited).run m u =
            (cmdExec path unlock (some pre) envPrefix (below ++ dir :: above) program
              inherited).run m v := by
  refine ⟨(readsBack_iff h).mpr hkey, ?_⟩
  intro m w u dir below above hm hbelow hrun path unlock envPrefix program inherited henv
  obtain ⟨u', hrun', hfs⟩ := writeProjectMarker_run hm (w := w) ⟨dir, markerName⟩ pre
  rw [hrun] at hrun'
  cases hrun'
  have hdir : u.fs ⟨dir, markerName⟩ = some (.text (pre ++ ['\n'])) := by
    rw [hfs, Function.update_self]
  have hnone : ∀ d ∈ below, u.fs ⟨d, markerName⟩ = none ∨ d = dir := by
    intro d hd
    by_cases hsame : d = dir
    · exact .inr hsame
    · rw [hfs, Function.update_of_ne (by simp [hsame])]
      exact .inl (hbelow d hd)
  obtain ⟨v, hresolve, hv⟩ :=
    resolvePrefix_answers hm above henv hnone hdir ((projectPrefix_iff h).mpr hkey)
  refine ⟨v, hv, ?_⟩
  rw [cmdExec, Fx.bind_run_ok hresolve, cmdExec]
  rfl

end Runs

/-- A vault with a key under `prefixed-app/` and one under `app/`. -/
def prefixedKeys : VaultBody :=
  ((∅ : VaultBody).insert "prefixed-app/k".toList ⟨"1".toList, 3, [], [], none, none⟩).insert
    "app/k".toList ⟨"2".toList, 3, [], [], none, none⟩

/-- A prefix that begins like the keyword: below its marker `exec` injects the
key that is under it. -/
theorem exec_of_marker_prefixed :
    letI := noJsonText
    letI := asciiUppercase
    ReadsBack "prefixed-app/".toList ∧ ∃ u v, u.Frame ∅ v ∧
      (cmdExec vaultJson pwUnlock none none ["/p/sub".toList, "/p".toList] "sh".toList []).run
          .quiet u =
        (cmdExec vaultJson pwUnlock (some "prefixed-app/".toList) none
          ["/p/sub".toList, "/p".toList] "sh".toList []).run .quiet v ∧
      ((cmdExec vaultJson pwUnlock none none ["/p/sub".toList, "/p".toList] "sh".toList []).run
          .quiet u).1 = .ok ["K=1".toList] := by
  let _ := noJsonText
  let _ := asciiUppercase
  have h : MarkerPrefix "prefixed-app/".toList :=
    ⟨by decide, by decide, by decide, by decide, not_quoted_of_head (by decide)⟩
  have hkey : ¬KeywordForm "prefixed-app/".toList := (projectPrefix_iff h).mp (by decide)
  obtain ⟨hreads, hexec⟩ := exec_of_marker h hkey
  let u := (writeProjectMarker ⟨"/p".toList, markerName⟩ (some "prefixed-app/".toList)).run .quiet
    (vaultDisk prefixedKeys [])
  have hwritten : u.1 = .ok () := by decide
  have hnone : ∀ d ∈ ["/p/sub".toList],
      (vaultDisk prefixedKeys []).fs ⟨d, markerName⟩ = none := by
    intro d hd
    rw [List.mem_singleton.mp hd]
    rfl
  obtain ⟨v, hframe, hsame⟩ := hexec .quiet (vaultDisk prefixedKeys []) u.2 "/p".toList
    ["/p/sub".toList] [] Machine.quiet_faultless hnone (Prod.ext hwritten rfl) vaultJson pwUnlock
    none "sh".toList [] rfl
  exact ⟨hreads, u.2, v, hframe, hsame, by decide⟩

/-- A prefix of the older form comes back without the keyword. -/
theorem keywordForm_not_readsBack :
    letI := noJsonText
    MarkerPrefix "prefix=app/".toList ∧ ¬ReadsBack "prefix=app/".toList ∧
      projectPrefix "prefix=app/\n".toList = some "app/".toList := by
  let _ := noJsonText
  have h : MarkerPrefix "prefix=app/".toList :=
    ⟨by decide, by decide, by decide, by decide,
      not_quoted_of_head (by decide)⟩
  refine ⟨h, fun hreads => ?_, by decide⟩
  exact (readsBack_iff h).mp hreads ⟨"=app/".toList, by decide, by decide⟩

end HearthVault
