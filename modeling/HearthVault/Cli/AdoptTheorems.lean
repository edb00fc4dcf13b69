/-
HearthVault.Cli.AdoptTheorems — what `scan --adopt` leaves of the files, and
whether `exec` gives back the environment that they set.

A finding that is adopted leaves a pointer on its line (`rewrittenLines`), and
its file is rewritten once the vault is saved and verified
(`adoptFindings_rewrites`). Its value is stored under the key that the scanner
suggested, so its name comes back from `exec` only where that key says so.
-/
import HearthVault.Cli.ExecTheorems
import HearthVault.Scan.Scanner

namespace HearthVault

open Files Symbolic Calendar Bindings

/-! ## The lines that are rewritten -/

/-- The lines of a file after its findings; a finding is adopted if its binding
is taken. -/
def rewrittenLines (pre : Str) (force : Bool) :
    (Str → Option (Str × UInt8)) → List Finding → List Str → List Str
  | _, [], lines => lines
  | v, f :: rest, lines =>
    match f.item pre lines with
    | none => rewrittenLines pre force v rest lines
    | some i =>
      if (v i.1).isSome ∧ !force then rewrittenLines pre force v rest lines
      else rewrittenLines pre force (put v i) rest (f.rewritten pre lines)

/-- The files that are rewritten, and their new texts. -/
def rewrites [JsonText] (pre : Str) (force : Bool) (fs : Path → Option Contents) :
    (Str → Option (Str × UInt8)) → List (Path × List Finding) → List (Path × Str)
  | _, [] => []
  | v, (q, findings) :: rest =>
    match fileText fs q with
    | none => rewrites pre force fs v rest
    | some text =>
      let items := taken force v (fileItems pre (Str.lines text) findings)
      let write := if items ≠ [] then
        [(q, Str.join "\n".toList (rewrittenLines pre force v findings (Str.lines text)) ++ ['\n'])]
        else []
      write ++ rewrites pre force fs (putAll v items) rest

section

variable {m : Machine} {w w' : Disk} {pre : Str} {force : Bool} {state state' : AdoptState}

theorem adoptInFile_lines {findings : List Finding} (hlines : LinesApart findings)
    (h : (adoptInFile pre force findings state).run m w = (.ok state', w')) :
    state'.lines = rewrittenLines pre force state.store.body.view findings state.lines ∧
      (state'.changed = true ↔ state.changed = true ∨
        taken force state.store.body.view (fileItems pre state.lines findings) ≠ []) := by
  induction findings generalizing state w with
  | nil =>
    cases h
    simp [rewrittenLines, fileItems]
  | cons f rest ih =>
    obtain ⟨state₁, w₁, hfirst, h⟩ := Fx.bind_eq_ok.mp h
    obtain ⟨hnew, hrest⟩ := List.pairwise_cons.mp hlines
    obtain ⟨hadopting, hkept, -⟩ := adoptFinding_eq_ok hfirst
    have hitems : fileItems pre state₁.lines rest = fileItems pre state.lines rest :=
      fileItems_congr fun g hg => hkept _ (Ne.symm (hnew g hg))
    obtain ⟨hafter, hchanged⟩ := ih hrest h
    rw [hitems] at hchanged
    rcases adoptFinding_cases pre force f state with ⟨hitem, errors, heq⟩ |
      ⟨key, value, hitem, ⟨hhas, rfl, skipped, heq⟩ | ⟨hfree, heq⟩⟩
    · rw [heq] at hfirst
      cases hfirst
      rw [rewrittenLines, hitem, fileItems, List.filterMap_cons_none hitem]
      exact ⟨hafter, hchanged⟩
    · rw [heq] at hfirst
      cases hfirst
      have hbound : (state.store.body.view key).isSome = true := by rwa [VaultBody.isSome_view]
      rw [rewrittenLines, hitem, fileItems, List.filterMap_cons_some hitem, taken_of_bound hbound]
      dsimp only
      rw [if_pos ⟨hbound, rfl⟩]
      exact ⟨hafter, hchanged⟩
    · rw [heq] at hfirst
      obtain ⟨store, v, hset, hfirst⟩ := Fx.bind_eq_ok.mp hfirst
      cases hfirst
      have hfree : ¬((state.store.body.view key).isSome = true ∧ (!force) = true) := by
        rwa [VaultBody.isSome_view]
      have hview : store.body.view = put state.store.body.view (key, value, tierUseOnly) :=
        (set_eq_ok hset).1.view
      rw [rewrittenLines, hitem, fileItems, List.filterMap_cons_some hitem, taken_cons hfree]
      dsimp only
      rw [if_neg hfree]
      rw [hview] at hafter
      exact ⟨hafter, by simp [hchanged]⟩

theorem Finding.assignment_congr {lines lines' : List Str} {f : Finding}
    (h : lines'[f.lineNumber - 1]? = lines[f.lineNumber - 1]?) :
    f.assignment lines' = f.assignment lines := by
  rw [assignment, h, ← assignment]

theorem Finding.rewritten_self {f : Finding} {lines : List Str} {name value : Str}
    (h : f.assignment lines = some (name, value)) :
    (f.rewritten pre lines)[f.lineNumber - 1]? = some (f.pointer pre name) := by
  obtain ⟨line, hline, -⟩ := Option.bind_eq_some_iff.mp h
  obtain ⟨hlt, -⟩ := List.getElem?_eq_some_iff.mp hline
  rw [rewritten, h]
  exact List.getElem?_set_self hlt

/-- The lines without a finding stay. -/
theorem rewrittenLines_of_ne {v : Str → Option (Str × UInt8)} {findings : List Finding}
    {lines : List Str} {i : Nat} (h : ∀ f ∈ findings, i ≠ f.lineNumber - 1) :
    (rewrittenLines pre force v findings lines)[i]? = lines[i]? := by
  induction findings generalizing v lines with
  | nil => rfl
  | cons f rest ih =>
    have hrest : ∀ g ∈ rest, i ≠ g.lineNumber - 1 := fun g hg => h g (.tail _ hg)
    unfold rewrittenLines
    split
    · exact ih hrest
    · split
      · exact ih hrest
      · rw [ih hrest, Finding.rewritten_of_ne (h f List.mem_cons_self)]

/-- Where the keys of the findings are new and different, every finding that
assigns a value is adopted. -/
theorem rewrittenLines_of_mem {v : Str → Option (Str × UInt8)} {findings : List Finding}
    {lines : List Str} (hlines : LinesApart findings)
    (hkeys : findings.Pairwise fun f g => f.suggestedKey ≠ g.suggestedKey)
    (hnew : ∀ f ∈ findings, v (pre ++ f.suggestedKey) = none) {f : Finding} (hf : f ∈ findings)
    {name value : Str} (hassigned : f.assignment lines = some (name, value)) (hvalue : value ≠ []) :
    (rewrittenLines pre force v findings lines)[f.lineNumber - 1]? = some (f.pointer pre name) := by
  induction findings generalizing v lines with
  | nil => cases hf
  | cons g rest ih =>
    obtain ⟨hline, hlines⟩ := List.pairwise_cons.mp hlines
    obtain ⟨hkey, hkeys⟩ := List.pairwise_cons.mp hkeys
    obtain rfl | hf := List.mem_cons.mp hf
    · have hitem : f.item pre lines = some (pre ++ f.suggestedKey, value, tierUseOnly) :=
        Finding.item_eq_some.mpr ⟨name, value, hassigned, hvalue, rfl⟩
      unfold rewrittenLines
      rw [hitem]
      dsimp only
      rw [if_neg (by simp [hnew f List.mem_cons_self]), rewrittenLines_of_ne hline,
        Finding.rewritten_self hassigned]
    · have hnew' : ∀ h ∈ rest, v (pre ++ h.suggestedKey) = none := fun h hh => hnew h (.tail _ hh)
      unfold rewrittenLines
      split
      · exact ih hlines hkeys hnew' hf hassigned
      · rename_i i hitem
        obtain ⟨-, -, -, -, rfl⟩ := Finding.item_eq_some.mp hitem
        split
        · exact ih hlines hkeys hnew' hf hassigned
        · refine ih hlines hkeys (fun h hh => ?_) hf ?_
          · rw [put, Function.update_of_ne fun heq =>
              hkey h hh (List.append_cancel_left heq).symm, hnew' h hh]
          · rw [← hassigned]
            exact Finding.assignment_congr (Finding.rewritten_of_ne (hline f hf).symm)

end

/-- Files that are written, in order. -/
def written (fs : Path → Option Contents) (writes : List (Path × Str)) : Path → Option Contents :=
  writes.foldl (fun fs write => Function.update fs write.1 (some (.text write.2))) fs

theorem written_of_notMem {fs : Path → Option Contents} {writes : List (Path × Str)} {q : Path}
    (h : ∀ write ∈ writes, write.1 ≠ q) : written fs writes q = fs q := by
  induction writes generalizing fs with
  | nil => rfl
  | cons write rest ih =>
    rw [written, List.foldl_cons, ← written, ih fun x hx => h x (.tail _ hx),
      Function.update_of_ne (h write List.mem_cons_self).symm]

theorem written_congr {fs fs' : Path → Option Contents} {writes : List (Path × Str)} {q : Path}
    (h : fs q = fs' q) : written fs writes q = written fs' writes q := by
  induction writes generalizing fs fs' with
  | nil => exact h
  | cons write rest ih =>
    refine ih ?_
    by_cases hq : write.1 = q <;> simp [Function.update, hq, h]

/-- A file that is written once has the text that is written. -/
theorem written_of_mem {fs : Path → Option Contents} {writes : List (Path × Str)}
    (hpaths : (writes.map Prod.fst).Nodup) {q : Path} {text : Str} (h : (q, text) ∈ writes) :
    written fs writes q = some (.text text) := by
  induction writes generalizing fs with
  | nil => cases h
  | cons write rest ih =>
    obtain ⟨hnew, hrest⟩ := List.nodup_cons.mp hpaths
    rw [written, List.foldl_cons, ← written]
    obtain rfl | h := List.mem_cons.mp h
    · rw [written_of_notMem, Function.update_self]
      intro x hx heq
      exact hnew (List.mem_map.mpr ⟨x, hx, heq⟩)
    · exact ih hrest h

section

variable [JsonText] {m : Machine} {w w' : Disk} {pre : Str} {force : Bool}
    {state state' : AdoptState}

theorem adoptFiles_rewrites (hm : m.Faultless) {files : List (Path × List Finding)}
    {writes : List (Path × Str)} (hlines : ∀ file ∈ files, LinesApart file.2)
    (h : (adoptFiles pre force files state).run m w = (.ok (state', writes), w')) :
    writes = rewrites pre force w.fs state.store.body.view files := by
  induction files generalizing state w writes with
  | nil =>
    cases h
    rfl
  | cons file rest ih =>
    obtain ⟨q, findings⟩ := file
    obtain ⟨r, ⟨v, hread, hframe⟩, htext⟩ := attempt_readText hm (w := w) q
    have hfs : v.fs = w.fs := funext fun p => hframe.fs p (by simp)
    have hrest : ∀ file ∈ rest, LinesApart file.2 := fun file hf => hlines file (.tail _ hf)
    unfold adoptFiles at h
    rw [Fx.bind_run_ok hread] at h
    unfold rewrites
    rw [htext]
    cases r with
    | error e =>
      have hwrites := ih hrest h
      rwa [hfs] at hwrites
    | ok text =>
      obtain ⟨state₁, v₁, hfile, h⟩ := Fx.bind_eq_ok.mp h
      obtain ⟨⟨state₂, writes₂⟩, v₂, hfiles, h⟩ := Fx.bind_eq_ok.mp h
      cases h
      obtain ⟨hafter, hchanged⟩ := adoptInFile_lines (hlines _ List.mem_cons_self) hfile
      obtain ⟨hadopting, htime⟩ := adoptInFile_eq_ok (hlines _ List.mem_cons_self) hfile
      rw [ih hrest hfiles, hadopting.storing.view, htime.fs, hfs, hafter]
      simp only [Bool.false_eq_true, false_or] at hchanged
      rw [if_congr hchanged rfl rfl]

theorem rewrites_congr {fs fs' : Path → Option Contents} {v : Str → Option (Str × UInt8)}
    {files : List (Path × List Finding)} (h : ∀ file ∈ files, fs' file.1 = fs file.1) :
    rewrites pre force fs' v files = rewrites pre force fs v files := by
  induction files generalizing v with
  | nil => rfl
  | cons file rest ih =>
    have hrest : ∀ file ∈ rest, fs' file.1 = fs file.1 := fun file hf => h file (.tail _ hf)
    unfold rewrites
    rw [fileText, h _ List.mem_cons_self, ← fileText]
    split
    · exact ih hrest
    · dsimp only
      rw [ih hrest]

theorem mem_rewrites {fs : Path → Option Contents} {v : Str → Option (Str × UInt8)}
    {files : List (Path × List Finding)} {write : Path × Str}
    (h : write ∈ rewrites pre force fs v files) : write.1 ∈ files.map Prod.fst := by
  induction files generalizing v with
  | nil => cases h
  | cons file rest ih =>
    obtain ⟨q, findings⟩ := file
    unfold rewrites at h
    split at h
    · exact .tail _ (ih h)
    · obtain h | h := List.mem_append.mp h
      · split at h
        · rw [List.mem_singleton.mp h]
          exact .head _
        · cases h
      · exact .tail _ (ih h)

/-- Every file is rewritten once at most. -/
theorem nodup_rewrites {fs : Path → Option Contents} {v : Str → Option (Str × UInt8)}
    {files : List (Path × List Finding)} (h : (files.map Prod.fst).Nodup) :
    ((rewrites pre force fs v files).map Prod.fst).Nodup := by
  induction files generalizing v with
  | nil => exact .nil
  | cons file rest ih =>
    obtain ⟨q, findings⟩ := file
    obtain ⟨hnew, hrest⟩ := List.nodup_cons.mp h
    unfold rewrites
    split
    · exact ih hrest
    · rw [List.map_append, List.nodup_append]
      refine ⟨?_, ih hrest, ?_⟩
      · split <;> simp
      · rintro p hp p' hp' rfl
        obtain ⟨write, hwrite, rfl⟩ := List.mem_map.mp hp
        obtain ⟨write', hwrite', heq⟩ := List.mem_map.mp hp'
        split at hwrite
        · rw [List.mem_singleton.mp hwrite] at heq
          exact hnew (heq ▸ mem_rewrites hwrite')
        · cases hwrite

end

/-- The key of a group of findings is that of their path. -/
theorem Grouped.pathComponents_eq {findings : List Finding}
    {files : Std.ExtTreeMap (List Str) (Path × List Finding) compare} (h : Grouped findings files)
    {k : List Str} {q : Path} {fs : List Finding} (hk : files[k]? = some (q, fs)) :
    pathComponents q = k := by
  replace hk := (h k).symm.trans hk
  cases hfilter : findings.filter fun f => pathComponents f.path = k with
  | nil =>
    rw [hfilter] at hk
    cases hk
  | cons f rest =>
    rw [hfilter] at hk
    cases hk
    have hmem : f ∈ findings.filter fun f => pathComponents f.path = k := by simp [hfilter]
    exact of_decide_eq_true (List.mem_filter.mp hmem).2

/-- No file has two groups of findings. -/
theorem nodup_findingsByFile (findings : List Finding) :
    ((findingsByFile findings).map Prod.fst).Nodup := by
  obtain ⟨files, hgrouped, hfiles⟩ := findingsByFile_grouped findings
  rw [hfiles]
  refine List.Nodup.of_map pathComponents ?_
  have hkeys : ((files.toList.map Prod.snd).map Prod.fst).map pathComponents =
      files.toList.map Prod.fst := by
    rw [List.map_map, List.map_map]
    refine List.map_congr_left fun entry hentry => ?_
    exact hgrouped.pathComponents_eq (Std.ExtTreeMap.mem_toList_iff_getElem?_eq_some.mp hentry)
  rw [hkeys, Std.ExtTreeMap.map_fst_toList_eq_keys]
  exact Std.ExtTreeMap.nodup_keys

/-! ## The command -/

section

variable [JsonText] {m : Machine} {path : Path} {w u : Disk} {unlock : Unlock}
    {findings : List Finding}
  {pre : Str} {force : Bool}

omit [JsonText] in
theorem rewriteFiles_written (hm : m.Faultless) {w : Disk} (writes : List (Path × Str)) :
    ∃ w', (rewriteFiles writes).run m w = (.ok (), w') ∧ w'.fs = written w.fs writes := by
  induction writes generalizing w with
  | nil => exact ⟨w, rfl, rfl⟩
  | cons write rest ih =>
    obtain ⟨v, hwrite, hv⟩ := write_run hm (w := w) write.1 (.text write.2)
    obtain ⟨w', hrest, hw'⟩ := @ih v
    refine ⟨w', ?_, ?_⟩
    · unfold rewriteFiles
      rw [Fx.bind_run_ok hwrite, hrest]
    · rw [hw', hv]
      rfl

/-- What is stored of findings. -/
def adoptedItems (pre : Str) (force : Bool) (body : VaultBody)
    (fs : Path → Option Contents) (findings : List Finding) : List (Str × Str × UInt8) :=
  taken force body.view (adoptItems pre fs (findingsByFile (envFindings [] findings)))

/-- A run of `scan --adopt` that succeeds has saved the values, which agree,
and rewritten the files. -/
theorem adoptFindings_rewrites (hm : m.Faultless) (hapart : FindingsApart path findings)
    {body : VaultBody} (hgiven : envFindings [] findings ≠ [])
    (hopens : unlock.Opens path (w.fs path) body) {outcome : AdoptOutcome}
    (hok : (adoptFindings path unlock findings pre force).run m w = (.ok outcome, u)) :
    (∃ body', Saves path w body (adoptedItems pre force body w.fs findings) body' u) ∧
      Agree (keyValues (adoptedItems pre force body w.fs findings)) ∧
      ∀ q ∉ vaultFiles path, u.fs q = written w.fs
        (rewrites pre force w.fs body.view (findingsByFile (envFindings [] findings))) q := by
  have hlines : ∀ file ∈ findingsByFile (envFindings [] findings), LinesApart file.2 :=
    fun file hf => linesApart_of_mem hapart.lines hf
  obtain ⟨store, v, hcurrent, rfl, -, hothers, hrun⟩ :=
    @adoptFindings_run _ m path w unlock findings pre force hm _ hgiven hopens
  have hfiles : ∀ file ∈ findingsByFile (envFindings [] findings), v.fs file.1 = w.fs file.1 := by
    intro file hf
    obtain ⟨f, hf, hpath⟩ := path_mem_of_mem hf
    exact hothers _ (hpath ▸ hapart.files f hf)
  rw [hrun] at hok
  obtain ⟨⟨state, writes⟩, v₁, hloop, hrest⟩ := Fx.bind_eq_ok.mp hok
  obtain ⟨saved, v₂, hsave, hrest⟩ := Fx.bind_eq_ok.mp hrest
  obtain ⟨_, v₃, hverify, hrest⟩ := Fx.bind_eq_ok.mp hrest
  obtain ⟨_, v₄, hrewrite, hrest⟩ := Fx.bind_eq_ok.mp hrest
  cases hrest
  obtain ⟨msg, u', outcome', -, hsaves, -, hcommit⟩ := adoptFindings_commit hm hcurrent hapart hloop
  rw [hok, adoptItems_congr hfiles] at hcommit
  rw [adoptItems_congr hfiles] at hsaves
  have hagree : Agree (keyValues (adoptedItems pre force store.body w.fs findings)) := by
    by_contra hnot
    rw [adoptedItems] at hnot
    rw [if_neg hnot] at hcommit
    cases congrArg Prod.fst hcommit
  have hu : u = u' := congrArg Prod.snd hcommit
  refine ⟨⟨state.store.body, hu ▸ hsaves.from hopens.entries⟩, hagree, fun q hq => ?_⟩
  obtain ⟨hadopting, -, hfs₁⟩ := adoptFiles_eq_ok hm hlines hloop
  obtain ⟨saved', u₂, hsave', -, hothers₂, msg', u₃, hverify', hframe⟩ :=
    commit_run hm (hcurrent.of_fs (by rw [hfs₁])) hadopting.storing
  cases hsave.symm.trans hsave'
  have hpairs : state.storedPairs = keyValues (taken force store.body.view
      (adoptItems pre v.fs (findingsByFile (envFindings [] findings)))) := hadopting.pairs
  rw [hpairs] at hverify
  cases congrArg Prod.snd (hverify.symm.trans hverify')
  obtain ⟨u₄, hrewrite', hfs₄⟩ := rewriteFiles_written hm (w := v₃) writes
  cases congrArg Prod.snd (hrewrite.symm.trans hrewrite')
  have hbefore : v₃.fs q = w.fs q := by
    rw [hframe.fs q (by simp), hothers₂ q hq, hfs₁, hothers q hq]
  rw [hfs₄, written_congr hbefore, adoptFiles_rewrites hm hlines hloop, rewrites_congr hfiles]

end

/-! ## scan --adopt, then exec -/

/-- The assignment of a finding, in its file. -/
def Finding.assigned [JsonText] (fs : Path → Option Contents) (f : Finding) : Option (Str × Str) :=
  (fileText fs f.path).bind fun text => f.assignment (Str.lines text)

/-- The findings are adopted and `exec` injects the variables that they set,
with no two under one key. -/
structure RestoresFindings [Unicode] (pre : Str) (env : Finding → Str × Str)
    (findings : List Finding) (path : Path) (after : Path → Option Contents) : Prop where
  adopted : ∀ f ∈ findings, ∃ lines,
    after f.path = some (.text (Str.join "\n".toList lines ++ ['\n'])) ∧
      lines[f.lineNumber - 1]? = some (f.pointer pre (env f).1)
  injected : ∃ body injected skipped, Entries (after path) body ∧
    collectExecEnv body pre = .ok (injected, skipped) ∧ ∀ f ∈ findings, env f ∈ injected
  apart : findings.Pairwise fun f g => f.suggestedKey ≠ g.suggestedKey

/-- The suggested keys are different, and are the names of the variables. -/
structure SuggestsNames [Unicode] (pre : Str) (env : Finding → Str × Str)
    (findings : List Finding) : Prop where
  values : ∀ f ∈ findings, (env f).2 ≠ []
  apart : findings.Pairwise fun f g => f.suggestedKey ≠ g.suggestedKey
  names : ∀ f ∈ findings, ∃ g ∈ findings,
    envNameFor (pre ++ g.suggestedKey) pre = (env f).1 ∧ (env g).2 = (env f).2

theorem envFindings_eq_self {seen : List (Path × Nat)} {findings : List Finding}
    (hdotenv : ∀ f ∈ findings, isDotenvFile f.path = true)
    (hlines : findings.Pairwise fun f g => (f.path, f.lineNumber) ≠ (g.path, g.lineNumber))
    (hseen : ∀ f ∈ findings, (f.path, f.lineNumber) ∉ seen) :
    envFindings seen findings = findings := by
  induction findings generalizing seen with
  | nil => rfl
  | cons f rest ih =>
    obtain ⟨hnew, hrest⟩ := List.pairwise_cons.mp hlines
    unfold envFindings
    rw [if_neg (by simp [hdotenv f List.mem_cons_self, hseen f List.mem_cons_self]),
      ih (fun g hg => hdotenv g (.tail _ hg)) hrest]
    intro g hg hmem
    obtain heq | hmem := List.mem_cons.mp hmem
    · exact hnew g hg heq.symm
    · exact hseen g (.tail _ hg) hmem

theorem taken_ne_nil {force : Bool} {v : Str → Option (Str × UInt8)}
    {items : List (Str × Str × UInt8)} {i : Str × Str × UInt8} (hi : i ∈ items)
    (hnew : v i.1 = none) : taken force v items ≠ [] := by
  obtain ⟨b, hb⟩ := Option.isSome_iff_exists.mp (first_isSome.mpr ⟨i.2, hi⟩)
  refine List.ne_nil_of_mem (a := (i.1, b)) (mem_taken.mpr ?_)
  cases force with
  | true => exact first_eq_some_mem hb
  | false => exact ⟨hnew, hb⟩

section

variable [JsonText] {pre : Str} {force : Bool} {fs : Path → Option Contents}

theorem mem_adoptItems {findings : List Finding} {i : Str × Str × UInt8} :
    i ∈ adoptItems pre fs (findingsByFile findings) ↔ ∃ f ∈ findings, ∃ name value,
      f.assigned fs = some (name, value) ∧ value ≠ [] ∧
        i = (pre ++ f.suggestedKey, value, tierUseOnly) := by
  unfold adoptItems
  rw [List.mem_flatMap]
  constructor
  · rintro ⟨⟨q, group⟩, hfile, hi⟩
    obtain ⟨-, rfl⟩ := mem_findingsByFile.mp hfile
    split at hi
    · rename_i text htext
      obtain ⟨f, hf, hitem⟩ := List.mem_filterMap.mp hi
      obtain ⟨hf, hpath⟩ := List.mem_filter.mp hf
      obtain ⟨name, value, hassignment, hvalue, rfl⟩ := Finding.item_eq_some.mp hitem
      refine ⟨f, hf, name, value, ?_, hvalue, rfl⟩
      rw [Finding.assigned, of_decide_eq_true hpath, htext]
      exact hassignment
    · cases hi
  · rintro ⟨f, hf, name, value, hassigned, hvalue, rfl⟩
    obtain ⟨text, htext, hassignment⟩ := Option.bind_eq_some_iff.mp hassigned
    have hgroup : f ∈ findings.filter fun g => g.path = f.path := by simp [hf]
    refine ⟨(f.path, findings.filter fun g => g.path = f.path),
      mem_findingsByFile.mpr ⟨List.ne_nil_of_mem hgroup, rfl⟩, ?_⟩
    rw [htext]
    exact List.mem_filterMap.mpr ⟨f, hgroup,
      Finding.item_eq_some.mpr ⟨name, value, hassignment, hvalue, rfl⟩⟩

/-- Where the keys of all findings are new and different, each is adopted in
its file. -/
theorem mem_rewrites_of_new {v : Str → Option (Str × UInt8)} {files : List (Path × List Finding)}
    (hpaths : (files.map Prod.fst).Nodup) (hgroups : ∀ file ∈ files, ∀ f ∈ file.2, f.path = file.1)
    (hlines : ∀ file ∈ files, LinesApart file.2)
    (hkeys : ∀ file ∈ files, ∀ f ∈ file.2, ∀ file' ∈ files, ∀ g ∈ file'.2,
      f.suggestedKey = g.suggestedKey → f = g)
    (hnew : ∀ file ∈ files, ∀ f ∈ file.2, v (pre ++ f.suggestedKey) = none)
    {file : Path × List Finding} (hfile : file ∈ files) {f : Finding} (hf : f ∈ file.2)
    {name value : Str} (hassigned : f.assigned fs = some (name, value)) (hvalue : value ≠ []) :
    ∃ lines, (f.path, Str.join "\n".toList lines ++ ['\n']) ∈ rewrites pre force fs v files ∧
      lines[f.lineNumber - 1]? = some (f.pointer pre name) := by
  induction files generalizing v with
  | nil => cases hfile
  | cons head rest ih =>
    obtain ⟨hq, hrest⟩ := List.nodup_cons.mp hpaths
    obtain ⟨text, htext, hassignment⟩ := Option.bind_eq_some_iff.mp hassigned
    have hpath := hgroups file hfile f hf
    obtain rfl | hothers := List.mem_cons.mp hfile
    · obtain ⟨q, group⟩ := file
      obtain rfl : f.path = q := hpath
      have hapart : group.Pairwise fun f g => f.suggestedKey ≠ g.suggestedKey := by
        refine (hlines _ List.mem_cons_self).imp_of_mem fun {g h} hg hh hline heq => hline ?_
        rw [hkeys _ List.mem_cons_self g hg _ List.mem_cons_self h hh heq]
      have hitem :
          (pre ++ f.suggestedKey, value, tierUseOnly) ∈ fileItems pre (Str.lines text) group :=
        List.mem_filterMap.mpr ⟨f, hf,
          Finding.item_eq_some.mpr ⟨name, value, hassignment, hvalue, rfl⟩⟩
      refine ⟨rewrittenLines pre force v group (Str.lines text), ?_,
        rewrittenLines_of_mem (hlines _ List.mem_cons_self) hapart
          (hnew _ List.mem_cons_self) hf hassignment hvalue⟩
      unfold rewrites
      rw [htext]
      dsimp only
      rw [if_pos (taken_ne_nil hitem (hnew _ List.mem_cons_self f hf))]
      exact List.mem_append_left _ List.mem_cons_self
    · obtain ⟨q, group⟩ := head
      have hnext : ∀ {v' : Str → Option (Str × UInt8)},
          (∀ file ∈ rest, ∀ g ∈ file.2, v' (pre ++ g.suggestedKey) = none) → ∃ lines,
          (f.path, Str.join "\n".toList lines ++ ['\n']) ∈ rewrites pre force fs v' rest ∧
            lines[f.lineNumber - 1]? = some (f.pointer pre name) := fun hnew' =>
        ih hrest (fun file hf => hgroups file (.tail _ hf))
          (fun file hf => hlines file (.tail _ hf))
          (fun file hf f hf' file' hg => hkeys file (.tail _ hf) f hf' file' (.tail _ hg))
          hnew' hothers
      unfold rewrites
      split
      · exact hnext fun file hf => hnew file (.tail _ hf)
      · rename_i text' htext'
        -- The keys of the first file are none of the others'.
        obtain ⟨lines, hwrite, hline⟩ := @hnext
            (putAll v (taken force v (fileItems pre (Str.lines text') group)))
            fun file hfile g hg => by
          have hnone : ∀ b, (pre ++ g.suggestedKey, b) ∉ fileItems pre (Str.lines text') group := by
            intro b hb
            obtain ⟨g', hg', hitem⟩ := List.mem_filterMap.mp hb
            obtain ⟨_, _, _, _, heq⟩ := Finding.item_eq_some.mp hitem
            have hkey := List.append_cancel_left (congrArg Prod.fst heq)
            have hsame := hkeys _ (.tail _ hfile) g hg _ List.mem_cons_self g' hg' hkey
            refine hq (List.mem_map.mpr ⟨file, hfile, ?_⟩)
            rw [← hgroups file (.tail _ hfile) g hg, hsame, hgroups _ List.mem_cons_self g' hg']
          rw [putAll_taken, last_eq_none.mpr hnone, first_eq_none.mpr hnone,
            hnew file (.tail _ hfile) g hg]
          simp
        exact ⟨lines, List.mem_append_right _ hwrite, hline⟩

end

/-- The lines of the findings are assignments in dotenv files, of variables
with different names. -/
structure DotenvFindings [JsonText] (fs : Path → Option Contents) (env : Finding → Str × Str)
    (findings : List Finding) : Prop where
  dotenv : ∀ f ∈ findings, isDotenvFile f.path = true
  assigned : ∀ f ∈ findings, f.assigned fs = some (env f)
  names : findings.Pairwise fun f g => (env f).1 ≠ (env g).1

section

variable [JsonText] {m : Machine} {path : Path} {w u : Disk} {unlock : Unlock}
  {env : Finding → Str × Str} {findings : List Finding} {pre : Str} {force : Bool}
  {body body' : VaultBody}

theorem DotenvFindings.envFindings_eq (h : DotenvFindings w.fs env findings) :
    envFindings [] findings = findings := by
  refine envFindings_eq_self h.dotenv ?_ nofun
  refine h.names.imp_of_mem fun {f g} hf hg hname heq => hname ?_
  obtain ⟨hpath, hline⟩ := Prod.mk.inj heq
  have hsame : f.assigned w.fs = g.assigned w.fs := by
    simp only [Finding.assigned, Finding.assignment, hpath, hline]
  rw [h.assigned f hf, h.assigned g hg] at hsame
  rw [Option.some.inj hsame]

theorem DotenvFindings.mem_adoptItems (h : DotenvFindings w.fs env findings)
    {i : Str × Str × UInt8} : i ∈ adoptItems pre w.fs (findingsByFile findings) ↔
      ∃ f ∈ findings, (env f).2 ≠ [] ∧ i = (pre ++ f.suggestedKey, (env f).2, tierUseOnly) := by
  rw [HearthVault.mem_adoptItems]
  refine exists_congr fun f => and_congr_right fun hf => ?_
  rw [h.assigned f hf]
  simp [Prod.ext_iff, and_assoc]

/-- Under a new prefix is what the findings assign, each under its key. -/
theorem Saves.view_adopted (h : DotenvFindings w.fs env findings) (hfresh : FreshPrefix pre body)
    (hsaves : Saves path w body (adoptedItems pre force body w.fs findings) body' u)
    {key value : Str}
    {tier : UInt8} (hpre : pre <+: key) (hview : body'.view key = some (value, tier)) :
    ∃ f ∈ findings, (env f).2 ≠ [] ∧ key = pre ++ f.suggestedKey ∧ value = (env f).2 := by
  obtain ⟨name, rfl⟩ := hpre
  have hitem : (pre ++ name, value, tier) ∈ adoptItems pre w.fs (findingsByFile findings) := by
    rw [hsaves.view, adoptedItems, h.envFindings_eq, putAll_taken, hfresh.view] at hview
    cases force with
    | true => exact last_eq_some_mem (by simpa using hview)
    | false => exact first_eq_some_mem (by simpa using hview)
  obtain ⟨f, hf, hvalue, heq⟩ := h.mem_adoptItems.mp hitem
  obtain ⟨hkey, hrest⟩ := Prod.mk.inj heq
  exact ⟨f, hf, hvalue, hkey, (Prod.mk.inj hrest).1⟩

/-- Where the suggested keys are different every value is stored. -/
theorem Saves.view_suggested (h : DotenvFindings w.fs env findings) (hfresh : FreshPrefix pre body)
    (hsaves : Saves path w body (adoptedItems pre force body w.fs findings) body' u)
    (hkeys : ∀ f ∈ findings, ∀ g ∈ findings, f.suggestedKey = g.suggestedKey → f = g) {f : Finding}
    (hf : f ∈ findings) (hvalue : (env f).2 ≠ []) :
    body'.view (pre ++ f.suggestedKey) = some ((env f).2, tierUseOnly) := by
  have hitem := h.mem_adoptItems.mpr ⟨f, hf, hvalue, (rfl : (pre ++ f.suggestedKey, _, _) = _)⟩
  have honly : ∀ b, (pre ++ f.suggestedKey, b) ∈ adoptItems pre w.fs (findingsByFile findings) →
      b = ((env f).2, tierUseOnly) := by
    intro b hb
    obtain ⟨g, hg, -, heq⟩ := h.mem_adoptItems.mp hb
    obtain rfl := hkeys f hf g hg (List.append_cancel_left (congrArg Prod.fst heq))
    exact congrArg Prod.snd heq
  obtain ⟨first', hfirst⟩ := Option.isSome_iff_exists.mp (first_isSome.mpr ⟨_, hitem⟩)
  obtain ⟨last', hlast⟩ := Option.isSome_iff_exists.mp (last_isSome.mpr ⟨_, hitem⟩)
  rw [hsaves.view, adoptedItems, h.envFindings_eq, putAll_taken, hfresh.view, hfirst, hlast,
    honly _ (first_eq_some_mem hfirst), honly _ (last_eq_some_mem hlast)]
  cases force <;> rfl

omit [JsonText] in
theorem suggestedKey_inj (h : findings.Pairwise fun f g => f.suggestedKey ≠ g.suggestedKey) :
    ∀ f ∈ findings, ∀ g ∈ findings, f.suggestedKey = g.suggestedKey → f = g := by
  have hnodup : (findings.map Finding.suggestedKey).Nodup := List.pairwise_map.mpr h
  intro f hf g hg heq
  exact List.inj_on_of_nodup_map hnodup hf hg heq

/-- `scan --adopt` and then `exec` restore the variables of findings if and only
if the suggested keys are different and stand for their names. -/
theorem adopt_restoresEnv [Unicode] (hm : m.Faultless) (hapart : FindingsApart path findings)
    (h : DotenvFindings w.fs env findings) (hopens : unlock.Opens path (w.fs path) body)
    (hfresh : FreshPrefix pre body) {outcome : AdoptOutcome}
    (hok : (adoptFindings path unlock findings pre force).run m w = (.ok outcome, u)) :
    RestoresFindings pre env findings path u.fs ↔ SuggestsNames pre env findings := by
  by_cases hgiven : findings = []
  · subst hgiven
    cases hok
    have hexec := @collectExecEnv_eq body pre _
    exact ⟨fun _ => ⟨nofun, .nil, nofun⟩,
      fun _ => ⟨nofun, ⟨body, _, _, hopens.entries, hexec, nofun⟩, .nil⟩⟩
  obtain ⟨⟨body', hsaves⟩, -, hfiles⟩ := adoptFindings_rewrites hm hapart
    (by rwa [h.envFindings_eq]) hopens hok
  have hexec := @collectExecEnv_eq body' pre _
  constructor
  · rintro ⟨-, ⟨body'', injected, skipped, hafter, hexec', hinjected⟩, hkeys⟩
    cases hafter.unique hsaves.after
    rw [hexec] at hexec'
    cases hexec'
    have hfrom : ∀ f ∈ findings, ∃ g ∈ findings, (env g).2 ≠ [] ∧
        envNameFor (pre ++ g.suggestedKey) pre = (env f).1 ∧ (env g).2 = (env f).2 := by
      intro f hf
      obtain ⟨⟨key, value, tier⟩, he, heq⟩ := List.mem_map.mp (hinjected f hf)
      obtain ⟨hpre, -, hview⟩ := mem_allowedEntries.mp he
      obtain ⟨g, hg, hvalue, rfl, rfl⟩ := hsaves.view_adopted h hfresh hpre hview
      exact ⟨g, hg, hvalue, (Prod.ext_iff.mp heq).1, (Prod.ext_iff.mp heq).2⟩
    refine ⟨fun f hf => ?_, hkeys, fun f hf => ?_⟩
    · obtain ⟨g, -, hvalue, -, hsame⟩ := hfrom f hf
      exact hsame ▸ hvalue
    · obtain ⟨g, hg, -, hname, hsame⟩ := hfrom f hf
      exact ⟨g, hg, hname, hsame⟩
  · rintro ⟨hvalues, hkeys, hnames⟩
    have hinj : ∀ f ∈ findings, ∀ g ∈ findings, f.suggestedKey = g.suggestedKey → f = g :=
      suggestedKey_inj hkeys
    refine ⟨fun f hf => ?_, ⟨body', _, _, hsaves.after, hexec, fun f hf => ?_⟩, hkeys⟩
    · have hgroups : ∀ file ∈ findingsByFile findings, ∀ g ∈ file.2,
          g ∈ findings ∧ g.path = file.1 := by
        rintro ⟨q, group⟩ hfile g hg
        obtain ⟨-, rfl⟩ := mem_findingsByFile.mp hfile
        simpa using hg
      have hgroup : f ∈ findings.filter fun g => g.path = f.path := by simp [hf]
      obtain ⟨lines, hwrite, hline⟩ := @mem_rewrites_of_new _ pre force w.fs body.view
        (findingsByFile findings) (nodup_findingsByFile findings)
        (fun file hfile g hg => (hgroups file hfile g hg).2)
        (fun file hfile => linesApart_of_mem hapart.lines (h.envFindings_eq.symm ▸ hfile))
        (fun file hfile f hf file' hfile' g hg => hinj f (hgroups file hfile f hf).1 g
          (hgroups file' hfile' g hg).1) (fun file hfile g hg => hfresh.view _)
        (f.path, findings.filter fun g => g.path = f.path)
        (mem_findingsByFile.mpr ⟨List.ne_nil_of_mem hgroup, rfl⟩) f hgroup (env f).1 (env f).2
        (h.assigned f hf) (hvalues f hf)
      refine ⟨lines, ?_, hline⟩
      rw [hfiles _ (hapart.files f hf), h.envFindings_eq]
      exact written_of_mem (nodup_rewrites (nodup_findingsByFile findings)) hwrite
    · obtain ⟨g, hg, hname, hvalue⟩ := hnames f hf
      have hview := hsaves.view_suggested h hfresh hinj hg (hvalues g hg)
      refine List.mem_map.mpr ⟨_, mem_allowedEntries.mpr
        ⟨List.prefix_append pre g.suggestedKey, by decide, hview⟩, ?_⟩
      rw [hname, hvalue]

end

/-- A match of a rule on the first line of the file `.env`. -/
def envFinding (ruleId : Str) : Finding :=
  ⟨envArg.path, 1, suggestedKeyFor ruleId envArg.path none⟩

theorem envFinding_apart (ruleId : Str) : FindingsApart vaultJson [envFinding ruleId] := by
  have hapart : ImportApart vaultJson envArg false := envArg_apart
  refine ⟨fun f hf => ?_, fun f hf => ?_⟩
  · rw [List.mem_singleton.mp hf]
    exact Nat.one_ne_zero
  · rw [List.mem_singleton.mp hf]
    exact hapart.source rfl

/-- A key as the rule for OpenAI keys has it. -/
def openaiKey : Str :=
  "sk-proj-aB1cD2eF3gH4iJ5kL6mN7oP8qR9s".toList

/-- The key of an OpenAI key is the name that its variable has by convention. -/
theorem adopt_restoresEnv_openai :
    letI := noJsonText
    letI := asciiUppercase
    RestoresFindings "app/".toList (fun _ => ("OPENAI_API_KEY".toList, openaiKey))
      [envFinding "openai-key".toList] vaultJson
      ((adoptFindings vaultJson pwUnlock [envFinding "openai-key".toList] "app/".toList false).run
        .quiet (envDisk ("OPENAI_API_KEY=".toList ++ openaiKey))).2.fs := by
  let _ := noJsonText
  let _ := asciiUppercase
  have hopens : pwUnlock.Opens vaultJson
      ((envDisk ("OPENAI_API_KEY=".toList ++ openaiKey)).fs vaultJson) ∅ := .inr (.inr rfl)
  have hok : ((adoptFindings vaultJson pwUnlock [envFinding "openai-key".toList] "app/".toList
      false).run .quiet (envDisk ("OPENAI_API_KEY=".toList ++ openaiKey))).1 =
      .ok ⟨["app/openai/api_key".toList], [], [], []⟩ := by decide
  refine (adopt_restoresEnv Machine.quiet_faultless (envFinding_apart _) ⟨?_, ?_, ?_⟩ hopens
    (fun _ _ => by simp [VaultBody.has]) (Prod.ext hok rfl)).mpr ⟨?_, ?_, ?_⟩
  · decide
  · decide
  · exact List.pairwise_singleton _ _
  · decide
  · exact List.pairwise_singleton _ _
  · decide

/-- The key of any other password is made of the directory of its file. -/
theorem adopt_not_restoresEnv :
    ¬∀ (_ : JsonText) (_ : Unicode) (m : Machine) (path : Path) (w u : Disk) (unlock : Unlock)
      (env : Finding → Str × Str) (findings : List Finding) (pre : Str) (force : Bool)
      (body : VaultBody) (outcome : AdoptOutcome), FixesNames → m.Faultless →
      FindingsApart path findings →
      (∀ f ∈ findings, ∃ ruleId keyname, f.suggestedKey = suggestedKeyFor ruleId f.path keyname) →
      DotenvFindings w.fs env findings → (∀ f ∈ findings, ∀ c ∈ (env f).1, isNameChar c = true) →
      unlock.Opens path (w.fs path) body → FreshPrefix pre body →
      (adoptFindings path unlock findings pre force).run m w = (.ok outcome, u) →
      RestoresFindings pre env findings path u.fs := by
  intro h
  let _ := noJsonText
  let _ := asciiUppercase
  have hok : ((adoptFindings vaultJson pwUnlock
      [envFinding "dotenv-assignment".toList] "app/".toList
      false).run .quiet (envDisk "DB_PASSWORD=S3cure!Passw0rd".toList)).1 =
      .ok ⟨["app/app/secret".toList], [], [], []⟩ := by decide
  obtain ⟨-, ⟨body, injected, skipped, hafter, hexec, hinjected⟩, -⟩ := h noJsonText asciiUppercase
    .quiet vaultJson (envDisk "DB_PASSWORD=S3cure!Passw0rd".toList) _ pwUnlock
    (fun _ => ("DB_PASSWORD".toList, "S3cure!Passw0rd".toList))
    [envFinding "dotenv-assignment".toList] "app/".toList false ∅
    ⟨["app/app/secret".toList], [], [], []⟩ asciiUppercase_fixesNames Machine.quiet_faultless
    (envFinding_apart _) (fun f hf => by
      rw [List.mem_singleton.mp hf]
      exact ⟨"dotenv-assignment".toList, none, rfl⟩)
    ⟨by decide, by decide, List.pairwise_singleton _ _⟩
    (fun _ _ => List.all_eq_true.mp (by decide)) (.inr (.inr rfl))
    (fun _ _ => by simp [VaultBody.has]) (Prod.ext hok rfl)
  have hstored : (sealedBody (((adoptFindings vaultJson pwUnlock
      [envFinding "dotenv-assignment".toList] "app/".toList false).run .quiet
      (envDisk "DB_PASSWORD=S3cure!Passw0rd".toList)).2.fs vaultJson)).map
      (fun body => collectExecEnv body "app/".toList) =
      some (.ok ([("APP_SECRET".toList, "S3cure!Passw0rd".toList)], [])) := by decide
  obtain ⟨body', hbody', hexec'⟩ := Option.map_eq_some_iff.mp hstored
  cases hafter.unique (entries_of_sealedBody hbody')
  rw [hexec] at hexec'
  cases hexec'
  exact absurd (hinjected _ List.mem_cons_self) (by decide)

end HearthVault
