/-
HearthVault.Cli.AdoptSafety — `scan --adopt` rewrites only what it has stored.

Whatever fails, no source file is written before the vault is saved and
verified (`adoptVerified`), and only dotenv files are written at all. What is
then written is said by the findings that are adopted (`Adopted`): each has a
pointer on its line, and the other lines of its file stay. A pointer is one
line unless the key that it names has a line break, and the texts of the other
lines are those of `str::lines` unless one of them ends in a carriage return,
which is then taken for a part of its line end.

The command is cut at the verification: up to it nothing but the vault's own
files is written, which is a matter of footprints and holds under any faults,
and after it the rewrites are those of `rewrites`, which name the findings
that they come from. `adopt_safe_iff` puts the two halves together on a run
without faults; the condition `PointersFit` is about texts alone, and
`LinesAdopted.linesReplaced_iff` is where it comes from, line by line.
-/
import HearthVault.Cli.AdoptTheorems
import HearthVault.Cli.DotenvTheorems

namespace HearthVault

open Files Symbolic Calendar Bindings

/-! ## The lines of a file -/

/-- The lines of a file before and after some of its findings are adopted. -/
structure LinesAdopted (pre : Str) (adopted : List Finding) (old new : List Str) : Prop where
  length : new.length = old.length
  pointers : ∀ f ∈ adopted, ∃ name value, f.assignment old = some (name, value) ∧
    new[f.lineNumber - 1]? = some (f.pointer pre name)
  others : ∀ i, (∀ f ∈ adopted, i ≠ f.lineNumber - 1) → new[i]? = old[i]?

theorem Finding.rewritten_length {pre : Str} {f : Finding} {lines : List Str} :
    (f.rewritten pre lines).length = lines.length := by
  unfold rewritten
  split <;> simp

/-- The findings that are adopted are those whose bindings are taken. -/
theorem rewrittenLines_adopted {pre : Str} {force : Bool} {v : Str → Option (Str × UInt8)}
    {findings : List Finding} {lines : List Str} (hlines : LinesApart findings) :
    LinesAdopted pre (takers (Finding.item pre lines) force v findings) lines
      (rewrittenLines pre force v findings lines) := by
  induction findings generalizing v lines with
  | nil => exact ⟨rfl, nofun, fun _ _ => rfl⟩
  | cons f rest ih =>
    obtain ⟨hline, hrest⟩ := List.pairwise_cons.mp hlines
    unfold rewrittenLines
    cases hitem : f.item pre lines with
    | none =>
      rw [takers_cons_none hitem]
      exact ih hrest
    | some b =>
      rw [takers_cons_some hitem]
      dsimp only
      split
      · exact ih hrest
      · obtain ⟨name, value, hassigned, -, -⟩ := Finding.item_eq_some.mp hitem
        have hsame : ∀ g ∈ rest, (f.rewritten pre lines)[g.lineNumber - 1]? =
            lines[g.lineNumber - 1]? :=
          fun g hg => Finding.rewritten_of_ne (hline g hg).symm
        have hafter := @ih (put v b) (f.rewritten pre lines) hrest
        rw [takers_congr fun g hg => Finding.item_congr (hsame g hg)] at hafter
        refine ⟨hafter.length.trans Finding.rewritten_length, ?_, fun i hi => ?_⟩
        · intro g hg
          obtain rfl | hg := List.mem_cons.mp hg
          · refine ⟨name, value, hassigned, ?_⟩
            have hpointer :
                (g.rewritten pre lines)[g.lineNumber - 1]? = some (g.pointer pre name) :=
              Finding.rewritten_self hassigned
            rw [← hpointer]
            exact hafter.others _ fun h hh => hline h ((takers_sublist rest).subset hh)
          · obtain ⟨name', value', hassigned', hpointer⟩ := hafter.pointers g hg
            rw [Finding.assignment_congr (hsame g ((takers_sublist rest).subset hg))] at hassigned'
            exact ⟨name', value', hassigned', hpointer⟩
        · obtain ⟨hf, hi⟩ := List.forall_mem_cons.mp hi
          rw [hafter.others i hi, Finding.rewritten_of_ne hf]

/-! ## The files -/

section

variable [JsonText]

/-- What a finding has for the vault, in its file. -/
def Finding.itemIn (pre : Str) (fs : Path → Option Contents) (f : Finding) :
    Option (Str × Str × UInt8) :=
  (fileText fs f.path).bind fun text => f.item pre (Str.lines text)

theorem Finding.itemIn_eq_some {pre : Str} {fs : Path → Option Contents} {f : Finding}
    {i : Str × Str × UInt8} : f.itemIn pre fs = some i ↔ ∃ name value,
      f.assigned fs = some (name, value) ∧ value ≠ [] ∧
        i = (pre ++ f.suggestedKey, value, tierUseOnly) := by
  rw [itemIn, assigned]
  cases fileText fs f.path with
  | none => simp
  | some text => exact Finding.item_eq_some

/-- The text of a file that is rewritten. -/
def adoptedText (lines : List Str) : Str :=
  Str.join "\n".toList lines ++ ['\n']

/-- A file that is rewritten has findings that are adopted, and the text that
they make of it. -/
structure FileAdopted (pre : Str) (fs : Path → Option Contents) (adopted : List Finding) (q : Path)
    (content : Str) : Prop where
  given : ∃ f ∈ adopted, f.path = q
  text : ∃ text new, fileText fs q = some text ∧ content = adoptedText new ∧
    LinesAdopted pre (adopted.filter fun f => f.path = q) (Str.lines text) new

variable {pre : Str} {force : Bool} {fs : Path → Option Contents}
  {v : Str → Option (Str × UInt8)} {files : List (Path × List Finding)}

theorem itemIn_of_text {q : Path} {text : Str} (htext : fileText fs q = some text)
    {findings : List Finding} (hpath : ∀ f ∈ findings, f.path = q) :
    ∀ f ∈ findings, f.itemIn pre fs = f.item pre (Str.lines text) := by
  intro f hf
  rw [Finding.itemIn, hpath f hf, htext]
  rfl

theorem adoptItems_eq_filterMap (hgroups : ∀ file ∈ files, ∀ f ∈ file.2, f.path = file.1) :
    adoptItems pre fs files = (files.flatMap Prod.snd).filterMap (Finding.itemIn pre fs) := by
  rw [List.filterMap_flatMap]
  refine List.flatMap_congr fun file hfile => ?_
  cases htext : fileText fs file.1 with
  | none =>
    refine (List.filterMap_eq_nil_iff.mpr fun f hf => ?_).symm
    rw [Finding.itemIn, hgroups file hfile f hf, htext]
    rfl
  | some text =>
    exact List.filterMap_congr fun f hf => (itemIn_of_text htext (hgroups file hfile) f hf).symm

/-- What is written for one file, by the findings that are adopted in it. -/
def fileRewrite (pre : Str) (force : Bool) (fs : Path → Option Contents)
    (v : Str → Option (Str × UInt8)) (q : Path) (findings : List Finding) : List (Path × Str) :=
  match fileText fs q with
  | none => []
  | some text =>
    if takers (Finding.itemIn pre fs) force v findings ≠ [] then
      [(q, adoptedText (rewrittenLines pre force v findings (Str.lines text)))]
    else []

section File

variable {q : Path} {findings : List Finding} (hpath : ∀ f ∈ findings, f.path = q)

include hpath

/-- The loop takes one file after the other. -/
theorem rewrites_cons (rest : List (Path × List Finding)) :
    rewrites pre force fs v ((q, findings) :: rest) = fileRewrite pre force fs v q findings ++
      rewrites pre force fs (putAll v (taken force v
        (findings.filterMap (Finding.itemIn pre fs)))) rest := by
  cases htext : fileText fs q with
  | none =>
    have hitems : ∀ f ∈ findings, f.itemIn pre fs = none := by
      intro f hf
      rw [Finding.itemIn, hpath f hf, htext]
      rfl
    rw [List.filterMap_eq_nil_iff.mpr hitems, taken_nil, putAll_nil]
    simp [rewrites, fileRewrite, htext]
  | some text =>
    have hitems : findings.filterMap (Finding.itemIn pre fs) =
        fileItems pre (Str.lines text) findings :=
      List.filterMap_congr (itemIn_of_text htext hpath)
    simp only [rewrites, fileRewrite, htext, ne_eq, takers_eq_nil, hitems]
    rfl

theorem fileRewrite_adopted (hlines : LinesApart findings) {write : Path × Str}
    (h : write ∈ fileRewrite pre force fs v q findings) :
    FileAdopted pre fs (takers (Finding.itemIn pre fs) force v findings) write.1 write.2 := by
  have htakers : ∀ f ∈ takers (Finding.itemIn pre fs) force v findings, f.path = q :=
    fun f hf => hpath f ((takers_sublist _).subset hf)
  unfold fileRewrite at h
  cases htext : fileText fs q with
  | none => simp [htext] at h
  | some text =>
    rw [htext] at h
    dsimp only at h
    split at h
    · rename_i hne
      obtain rfl := List.mem_singleton.mp h
      obtain ⟨f, hf⟩ := List.exists_mem_of_ne_nil _ hne
      refine ⟨⟨f, hf, htakers f hf⟩, text, _, htext, rfl, ?_⟩
      rw [List.filter_eq_self.mpr (by simpa using htakers),
        takers_congr (itemIn_of_text htext hpath)]
      exact rewrittenLines_adopted hlines
    · cases h

/-- A file with findings that are adopted has a text, and is written. -/
theorem mem_fileRewrite {f : Finding} (hf : f ∈ takers (Finding.itemIn pre fs) force v findings) :
    f.path ∈ (fileRewrite pre force fs v q findings).map Prod.fst := by
  obtain ⟨i, hitem⟩ := item_of_mem_takers hf
  have hq := hpath f ((takers_sublist _).subset hf)
  unfold fileRewrite
  cases htext : fileText fs q with
  | none =>
    rw [Finding.itemIn, hq, htext] at hitem
    cases hitem
  | some text =>
    dsimp only
    rw [if_pos (List.ne_nil_of_mem hf), hq]
    exact List.mem_cons_self

end File

theorem mem_of_mem_fileRewrite {q : Path} {findings : List Finding} {write : Path × Str}
    (h : write ∈ fileRewrite pre force fs v q findings) : write.1 = q := by
  unfold fileRewrite at h
  split at h
  · cases h
  · split at h
    · rw [List.mem_singleton.mp h]
    · cases h

/-- Findings of other files do not matter to a file. -/
theorem FileAdopted.of_filter {adopted adopted' : List Finding} {q : Path} {content : Str}
    (h : FileAdopted pre fs adopted q content)
    (hsame : adopted'.filter (fun f => f.path = q) = adopted.filter fun f => f.path = q) :
    FileAdopted pre fs adopted' q content := by
  obtain ⟨⟨f, hf, hq⟩, text⟩ := h
  rw [← hsame] at text
  refine ⟨⟨f, ?_, hq⟩, text⟩
  have hmem : f ∈ adopted'.filter fun f => f.path = q := by
    rw [hsame]
    exact List.mem_filter.mpr ⟨hf, by simpa using hq⟩
  exact (List.mem_filter.mp hmem).1

theorem rewrites_adopted (hpaths : (files.map Prod.fst).Nodup)
    (hgroups : ∀ file ∈ files, ∀ f ∈ file.2, f.path = file.1)
    (hlines : ∀ file ∈ files, LinesApart file.2) :
    (∀ write ∈ rewrites pre force fs v files, FileAdopted pre fs
      (takers (Finding.itemIn pre fs) force v (files.flatMap Prod.snd)) write.1 write.2) ∧
    ∀ f ∈ takers (Finding.itemIn pre fs) force v (files.flatMap Prod.snd),
      f.path ∈ (rewrites pre force fs v files).map Prod.fst := by
  induction files generalizing v with
  | nil => exact ⟨nofun, nofun⟩
  | cons file rest ih =>
    obtain ⟨q, findings⟩ := file
    obtain ⟨hq, hpaths⟩ := List.nodup_cons.mp hpaths
    have hpath : ∀ f ∈ findings, f.path = q := hgroups _ List.mem_cons_self
    have hothers : ∀ f ∈ rest.flatMap Prod.snd, f.path ≠ q := by
      rintro f hf rfl
      obtain ⟨file, hfile, hf⟩ := List.mem_flatMap.mp hf
      exact hq (List.mem_map.mpr ⟨file, hfile, (hgroups file (.tail _ hfile) f hf).symm⟩)
    obtain ⟨hfiles, hpointed⟩ := @ih (putAll v (taken force v (findings.filterMap
      (Finding.itemIn pre fs)))) hpaths (fun file hf => hgroups file (.tail _ hf))
      fun file hf => hlines file (.tail _ hf)
    rw [List.flatMap_cons, takers_append, rewrites_cons hpath]
    set here := takers (Finding.itemIn pre fs) force v findings with hhere
    set later := takers (Finding.itemIn pre fs) force (putAll v (taken force v
      (findings.filterMap (Finding.itemIn pre fs)))) (rest.flatMap Prod.snd) with hlater
    constructor
    · intro write hwrite
      obtain hwrite | hwrite := List.mem_append.mp hwrite
      · -- The findings of the files that follow are in those files.
        refine (fileRewrite_adopted hpath (hlines _ List.mem_cons_self) hwrite).of_filter ?_
        have hnone : later.filter (fun f => f.path = write.1) = [] := by
          refine List.filter_eq_nil_iff.mpr fun f hf => ?_
          rw [mem_of_mem_fileRewrite hwrite]
          simpa using hothers f ((takers_sublist _).subset hf)
        rw [List.filter_append, hnone, List.append_nil]
      · refine (hfiles write hwrite).of_filter ?_
        have hne : write.1 ≠ q := fun heq => hq (heq ▸ mem_rewrites hwrite)
        have hnone : here.filter (fun f => f.path = write.1) = [] := by
          refine List.filter_eq_nil_iff.mpr fun f hf => ?_
          simpa [hpath f ((takers_sublist _).subset hf)] using hne.symm
        rw [List.filter_append, hnone, List.nil_append]
    · intro f hf
      rw [List.map_append]
      obtain hf | hf := List.mem_append.mp hf
      · exact List.mem_append_left _ (mem_fileRewrite hpath hf)
      · exact List.mem_append_right _ (hpointed f hf)

end

/-! ## Up to the verification -/

/-- What `adopt_findings` has when the vault is verified: its outcome, the
rewrites it has deferred and the values it has stored. -/
structure Verified where
  outcome : AdoptOutcome
  writes : List (Path × Str)
  stored : List (Str × Str)

section

variable [JsonText]

/-- `adopt_findings` up to its verification. -/
def adoptVerified (path : Path) (unlock : Unlock) (findings : List Finding) (pre : Str)
    (force : Bool) : Prog Verified := do
  let skippedSource := findings.filter fun f => !isDotenvFile f.path
  let env := envFindings [] findings
  if env = [] then pure ⟨⟨[], [], skippedSource, []⟩, [], []⟩
  else
    let store ← openVault path unlock
    let store ← store.lockAndRefresh
    let (state, writes) ← adoptFiles pre force (findingsByFile env)
      ⟨store, [], false, [], [], [], []⟩
    let store ← state.store.save
    store.verifyPersisted state.storedPairs
    pure ⟨⟨state.adopted, state.skippedExisting, skippedSource, state.errors⟩, writes,
      state.storedPairs⟩

variable {m : Machine} {path : Path} {w : Disk} {unlock : Unlock} {findings : List Finding}
  {pre : Str} {force : Bool}

/-- The rest of it are the rewrites. -/
theorem adoptFindings_run_eq : (adoptFindings path unlock findings pre force).run m w = (do
    let r ← adoptVerified path unlock findings pre force
    rewriteFiles r.writes
    pure r.outcome : Prog AdoptOutcome).run m w := by
  unfold adoptFindings adoptVerified
  dsimp only
  by_cases henv : envFindings [] findings = []
  · rw [if_pos henv, if_pos henv]
    rfl
  · simp only [if_neg henv, bind_assoc, pure_bind]

variable {S : Set Path}

omit [JsonText] in
theorem adoptInFile_footprint {findings : List Finding} {state : AdoptState}
    (h : state.store.At path) :
    (adoptInFile pre force findings state).Footprint S true fun state => state.store.At path := by
  induction findings generalizing state with
  | nil => exact .pure h
  | cons f rest ih =>
    refine Fx.Footprint.bind (A := fun state => state.store.At path) ?_ fun state h => ih h
    rcases adoptFinding_cases pre force f state with ⟨-, errors, heq⟩ |
      ⟨key, value, -, ⟨-, -, skipped, heq⟩ | ⟨-, heq⟩⟩
    · rw [heq]
      exact .pure h
    · rw [heq]
      exact .pure h
    · rw [heq]
      exact h.set.bind fun store hstore => .pure hstore

/-- The loop over the files reads, and defers rewrites of these files. -/
theorem adoptFiles_footprint {P : Path → Prop} {files : List (Path × List Finding)}
    {state : AdoptState} (h : state.store.At path) (hfiles : ∀ file ∈ files, P file.1) :
    (adoptFiles pre force files state).Footprint S true fun r =>
      r.1.store.At path ∧ ∀ write ∈ r.2, P write.1 := by
  induction files generalizing state with
  | nil => exact .pure ⟨h, nofun⟩
  | cons file rest ih =>
    obtain ⟨hfile, hrest⟩ := List.forall_mem_cons.mp hfiles
    have hread : (readText file.1).Footprint S true fun _ => True :=
      Fx.Footprint.read.bind fun _ _ => .ofResult fun _ _ => trivial
    refine hread.attempt.bind fun r _ => ?_
    cases r with
    | error e => exact ih h hrest
    | ok content =>
      dsimp only
      refine Fx.Footprint.bind (adoptInFile_footprint h) fun state h => (ih h hrest).bind ?_
      rintro ⟨state, writes⟩ ⟨hstate, hwrites⟩
      refine .pure ⟨hstate, fun write hw => ?_⟩
      obtain hw | hw := List.mem_append.mp hw
      · split at hw
        · rw [List.mem_singleton.mp hw]
          exact hfile
        · cases hw
      · exact hwrites write hw

/-- The files that may be rewritten: those of findings, if they are dotenv
files. -/
def Adoptable (findings : List Finding) (q : Path) : Prop :=
  isDotenvFile q = true ∧ ∃ f ∈ findings, f.path = q

omit [JsonText] in
theorem dotenv_of_mem_envFindings {seen : List (Path × Nat)} {f : Finding}
    (h : f ∈ envFindings seen findings) : isDotenvFile f.path = true := by
  induction findings generalizing seen with
  | nil => cases h
  | cons g rest ih =>
    unfold envFindings at h
    split at h
    · exact ih h
    · rename_i hnew
      obtain rfl | h := List.mem_cons.mp h
      · simpa using (not_or.mp hnew).1
      · exact ih h

omit [JsonText] in
theorem adoptable_of_mem {file : Path × List Finding}
    (h : file ∈ findingsByFile (envFindings [] findings)) : Adoptable findings file.1 := by
  obtain ⟨q, fs⟩ := file
  obtain ⟨hne, rfl⟩ := mem_findingsByFile.mp h
  obtain ⟨f, hmem⟩ := List.exists_mem_of_ne_nil _ hne
  obtain ⟨hgiven, hpath⟩ := List.mem_filter.mp hmem
  obtain rfl : f.path = q := of_decide_eq_true hpath
  exact ⟨dotenv_of_mem_envFindings hgiven, f, (mem_envFindings hgiven).1, rfl⟩

theorem adoptVerified_footprint (hS : vaultFiles path ⊆ S) :
    (adoptVerified path unlock findings pre force).Footprint S true fun r =>
      ∀ write ∈ r.writes, Adoptable findings write.1 := by
  unfold adoptVerified
  dsimp only
  split
  · exact .pure nofun
  refine (openVault_footprint hS unlock).bind fun store h => ?_
  refine (VaultStore.lockAndRefresh_footprint h).bind fun store h => ?_
  refine (adoptFiles_footprint h fun file => adoptable_of_mem).bind ?_
  rintro ⟨state, writes⟩ ⟨hstate, hwrites⟩
  refine (VaultStore.save_footprint ((privateFiles_subset path).trans hS) hstate).bind fun _ _ => ?_
  exact VaultStore.verifyPersisted_footprint.bind fun _ _ => .pure hwrites

omit [JsonText] in
theorem rewriteFiles_footprint {writes : List (Path × Str)} (h : ∀ write ∈ writes, write.1 ∈ S) :
    (rewriteFiles writes).Footprint S true fun _ => True := by
  induction writes with
  | nil => exact .pure trivial
  | cons write rest ih =>
    obtain ⟨hwrite, hrest⟩ := List.forall_mem_cons.mp h
    exact (Fx.Footprint.write hwrite _).bind fun _ _ => ih hrest

theorem adoptFindings_fs {q : Path} (hq : q ∉ vaultFiles path)
    (hadoptable : ¬Adoptable findings q) :
    ((adoptFindings path unlock findings pre force).run m w).2.fs q = w.fs q := by
  set S : Set Path := vaultFiles path ∪ {p | Adoptable findings p} with hS
  have hfoot : (do
      let r ← adoptVerified path unlock findings pre force
      rewriteFiles r.writes
      pure r.outcome : Prog AdoptOutcome).Footprint S true fun _ => True := by
    refine (adoptVerified_footprint Set.subset_union_left).bind fun r hr => ?_
    exact (rewriteFiles_footprint fun write hw => .inr (hr write hw)).bind fun _ _ => .pure trivial
  rw [adoptFindings_run_eq]
  exact hfoot.run_fs fun h => h.elim hq hadoptable

/-- Before the verification no source file is written. -/
theorem adoptVerified_fs {q : Path} (hq : q ∉ vaultFiles path) :
    ((adoptVerified path unlock findings pre force).run m w).2.fs q = w.fs q :=
  (adoptVerified_footprint subset_rfl).run_fs hq

omit [JsonText] in
/-- What is verified is in the vault file. -/
theorem verifyPersisted_stored {store : VaultStore} {expected : List (Str × Str)} {w' : Disk}
    {u : Unit} (h : (store.verifyPersisted expected).run m w = (.ok u, w')) :
    ∃ body, Entries (w'.fs store.path) body ∧ ∀ p ∈ expected, body.value? p.1 = some p.2 := by
  obtain ⟨c, v, hread, h⟩ := Fx.bind_eq_ok.mp h
  obtain ⟨-, hfs, -, rfl⟩ := readToString_eq_ok.mp (Fx.mapErr_eq_ok.mp hread)
  obtain ⟨hverify, rfl⟩ := Fx.ofResult_eq_ok.mp h
  cases c with
  | v2 file =>
    unfold VaultStore.verifyContents at hverify
    obtain ⟨_, ⟨⟩, hverify⟩ := result_bind_eq_ok.mp hverify
    obtain ⟨body, hbody, hmissing⟩ := result_bind_eq_ok.mp hverify
    refine ⟨body, ?_, ?_⟩
    · show Entries (w.fs store.path) body
      rw [hfs, entries_v2]
      exact sealedBody_of_decryptBody (mapErr_eq_ok.mp hbody)
    · dsimp only at hmissing
      split at hmissing
      · rename_i hnone
        simpa using hnone
      · cases hmissing
  | _ => cases hverify

theorem adoptVerified_stored {r : Verified} {w' : Disk}
    (h : (adoptVerified path unlock findings pre force).run m w = (.ok r, w'))
    (hwrites : r.writes ≠ []) :
    ∃ body, Entries (w'.fs path) body ∧ ∀ p ∈ r.stored, body.value? p.1 = some p.2 := by
  unfold adoptVerified at h
  dsimp only at h
  split at h
  · cases h
    exact absurd rfl hwrites
  obtain ⟨opened, w₁, hopen, h⟩ := Fx.bind_eq_ok.mp h
  obtain ⟨locked, w₂, hrefresh, h⟩ := Fx.bind_eq_ok.mp h
  obtain ⟨⟨state, writes⟩, w₃, hloop, h⟩ := Fx.bind_eq_ok.mp h
  obtain ⟨saved, w₄, hsave, h⟩ := Fx.bind_eq_ok.mp h
  obtain ⟨_, w₅, hverify, h⟩ := Fx.bind_eq_ok.mp h
  cases h
  have hopened : opened.At path := (openVault_footprint subset_rfl unlock).run_value hopen
  have hlocked : locked.At path :=
    (@VaultStore.lockAndRefresh_footprint ∅ true _ _ hopened).run_value hrefresh
  have hstate : state.store.At path :=
    ((@adoptFiles_footprint _ path pre force ∅ (fun _ => True) _
      ⟨locked, [], false, [], [], [], []⟩ hlocked fun _ _ => trivial).run_value hloop).1
  have hsaved : saved.At path :=
    (VaultStore.save_footprint (privateFiles_subset path) hstate).run_value hsave
  rw [← hsaved]
  exact verifyPersisted_stored hverify

/-! ## What is adopted -/

/-- A finding is adopted if its line assigns a value, and its key is new to the
vault and to the findings before it, or is forced. -/
structure Adopted (pre : Str) (force : Bool) (body : VaultBody) (fs : Path → Option Contents)
    (findings : List Finding) (f : Finding) : Prop where
  given : f ∈ envFindings [] findings
  assigns : ∃ name value, f.assigned fs = some (name, value) ∧ value ≠ []
  free : force = false → body.has (pre ++ f.suggestedKey) = false ∧
    ∀ g, [g, f].Sublist ((findingsByFile (envFindings [] findings)).flatMap Prod.snd) →
      (∃ name value, g.assigned fs = some (name, value) ∧ value ≠ []) →
        g.suggestedKey ≠ f.suggestedKey

/-- The findings that are adopted, in order. -/
def adoptedFindings (pre : Str) (force : Bool) (body : VaultBody) (fs : Path → Option Contents)
    (findings : List Finding) : List Finding :=
  takers (Finding.itemIn pre fs) force body.view
    ((findingsByFile (envFindings [] findings)).flatMap Prod.snd)

section

variable {pre : Str} {force : Bool} {fs : Path → Option Contents} {body : VaultBody}
  {findings : List Finding} {f : Finding}

omit [JsonText] in
theorem mem_flatMap_findingsByFile :
    f ∈ (findingsByFile findings).flatMap Prod.snd ↔ f ∈ findings := by
  rw [List.mem_flatMap]
  constructor
  · rintro ⟨⟨q, group⟩, hfile, hf⟩
    obtain ⟨-, rfl⟩ := mem_findingsByFile.mp hfile
    exact (List.mem_filter.mp hf).1
  · intro hf
    have hgroup : f ∈ findings.filter fun g => g.path = f.path := by simp [hf]
    exact ⟨_, mem_findingsByFile.mpr ⟨List.ne_nil_of_mem hgroup, rfl⟩, hgroup⟩

omit [JsonText] in
theorem path_of_mem_findingsByFile {file : Path × List Finding}
    (h : file ∈ findingsByFile findings) : ∀ f ∈ file.2, f.path = file.1 := by
  intro f hf
  obtain ⟨q, group⟩ := file
  obtain ⟨-, rfl⟩ := mem_findingsByFile.mp h
  exact of_decide_eq_true (List.mem_filter.mp hf).2

omit [JsonText] in
theorem nodup_envFindings : (envFindings [] findings).Nodup :=
  (envFindings_pairwise [] findings).imp fun hne heq => hne (by rw [heq])

omit [JsonText] in
theorem envFindings_envFindings (findings : List Finding) :
    envFindings [] (envFindings [] findings) = envFindings [] findings :=
  envFindings_eq_self (fun _ => dotenv_of_mem_envFindings) (envFindings_pairwise [] findings)
    fun _ _ => List.not_mem_nil

omit [JsonText] in
/-- The findings of the files are those of the list, each once. -/
theorem nodup_flatMap_findingsByFile (h : findings.Nodup) :
    ((findingsByFile findings).flatMap Prod.snd).Nodup := by
  refine List.nodup_flatMap.mpr ⟨?_, ?_⟩
  · rintro ⟨q, group⟩ hfile
    obtain ⟨-, rfl⟩ := mem_findingsByFile.mp hfile
    exact h.filter _
  · have hpaths := List.pairwise_map.mp (nodup_findingsByFile findings)
    refine hpaths.imp_of_mem ?_
    rintro ⟨q, group⟩ ⟨q', group'⟩ hfile hfile' hne
    obtain ⟨-, rfl⟩ := mem_findingsByFile.mp hfile
    obtain ⟨-, rfl⟩ := mem_findingsByFile.mp hfile'
    intro f hf hf'
    have hq := (List.mem_filter.mp hf).2
    have hq' := (List.mem_filter.mp hf').2
    exact hne ((of_decide_eq_true hq).symm.trans (of_decide_eq_true hq'))

theorem mem_adoptedFindings :
    f ∈ adoptedFindings pre force body fs findings ↔ Adopted pre force body fs findings f := by
  have hnodup := nodup_flatMap_findingsByFile (@nodup_envFindings findings)
  constructor
  · intro hf
    obtain ⟨b, hitem⟩ := item_of_mem_takers hf
    obtain ⟨name, value, hassigned, hvalue, rfl⟩ := Finding.itemIn_eq_some.mp hitem
    obtain ⟨hgiven, hfree⟩ := (mem_takers hnodup hitem).mp hf
    refine ⟨mem_flatMap_findingsByFile.mp hgiven, ⟨name, value, hassigned, hvalue⟩,
      fun hforce => ?_⟩
    obtain ⟨hnew, hbefore⟩ := hfree hforce
    refine ⟨?_, fun g hg ⟨name', value', hassigned', hvalue'⟩ heq => ?_⟩
    · rw [← VaultBody.isSome_view, hnew]
      rfl
    · refine hbefore g hg _
        (Finding.itemIn_eq_some.mpr ⟨name', value', hassigned', hvalue', rfl⟩) ?_
      rw [heq]
  · rintro ⟨hgiven, ⟨name, value, hassigned, hvalue⟩, hfree⟩
    have hitem : f.itemIn pre fs = some (pre ++ f.suggestedKey, value, tierUseOnly) :=
      Finding.itemIn_eq_some.mpr ⟨name, value, hassigned, hvalue, rfl⟩
    refine (mem_takers hnodup hitem).mpr ⟨mem_flatMap_findingsByFile.mpr hgiven, fun hforce => ?_⟩
    obtain ⟨hnew, hbefore⟩ := hfree hforce
    refine ⟨?_, fun g hg c hc heq => ?_⟩
    · rw [← VaultBody.isSome_view] at hnew
      exact Option.not_isSome_iff_eq_none.mp (by simp [hnew])
    · obtain ⟨name', value', hassigned', hvalue', rfl⟩ := Finding.itemIn_eq_some.mp hc
      exact hbefore g hg ⟨name', value', hassigned', hvalue'⟩ (List.append_cancel_left heq)

/-- What is stored is what the adopted findings have for the vault. -/
theorem adoptedItems_eq : adoptedItems pre force body fs findings =
    (adoptedFindings pre force body fs findings).filterMap (Finding.itemIn pre fs) := by
  rw [adoptedItems, adoptedFindings, takers_filterMap,
    adoptItems_eq_filterMap fun _ => path_of_mem_findingsByFile]

/-- The files that are rewritten are those of the adopted findings. -/
theorem rewrites_adoptedFindings (hlines : ∀ f ∈ envFindings [] findings, f.lineNumber ≠ 0) :
    (∀ write ∈ rewrites pre force fs body.view (findingsByFile (envFindings [] findings)),
      FileAdopted pre fs (adoptedFindings pre force body fs findings) write.1 write.2) ∧
    ∀ f, Adopted pre force body fs findings f →
      f.path ∈ (rewrites pre force fs body.view (findingsByFile (envFindings [] findings))).map
        Prod.fst := by
  obtain ⟨hwrites, hpointed⟩ := @rewrites_adopted _ pre force fs body.view
    (findingsByFile (envFindings [] findings)) (nodup_findingsByFile _)
    (fun _ => path_of_mem_findingsByFile)
    fun file hfile => linesApart_of_mem hlines (by rwa [envFindings_envFindings])
  exact ⟨hwrites, fun f hf => hpointed f (mem_adoptedFindings.mpr hf)⟩

/-- The findings that are adopted give no key two values. -/
def SameValues (pre : Str) (force : Bool) (body : VaultBody) (fs : Path → Option Contents)
    (findings : List Finding) : Prop :=
  ∀ f g, Adopted pre force body fs findings f → Adopted pre force body fs findings g →
    f.suggestedKey = g.suggestedKey → (f.assigned fs).map Prod.snd = (g.assigned fs).map Prod.snd

theorem agree_adoptedItems :
    Agree (keyValues (adoptedItems pre force body fs findings)) ↔
      SameValues pre force body fs findings := by
  rw [adoptedItems_eq]
  constructor
  · intro h f g hf hg hkey
    obtain ⟨name, value, hassigned, hvalue⟩ := hf.assigns
    obtain ⟨name', value', hassigned', hvalue'⟩ := hg.assigns
    have hpair : ∀ {f : Finding} {name value : Str}, Adopted pre force body fs findings f →
        f.assigned fs = some (name, value) → value ≠ [] → (pre ++ f.suggestedKey, value) ∈
          keyValues ((adoptedFindings pre force body fs findings).filterMap
            (Finding.itemIn pre fs)) := by
      intro f name value hf hassigned hvalue
      refine List.mem_map.mpr ⟨(pre ++ f.suggestedKey, value, tierUseOnly), ?_, rfl⟩
      exact List.mem_filterMap.mpr ⟨f, mem_adoptedFindings.mpr hf,
        Finding.itemIn_eq_some.mpr ⟨name, value, hassigned, hvalue, rfl⟩⟩
    have hsame := h _ (hpair hf hassigned hvalue) _ (hpair hg hassigned' hvalue') (by rw [hkey])
    rw [hassigned, hassigned']
    exact congrArg some hsame
  · intro h b hb b' hb' hkey
    obtain ⟨i, hi, rfl⟩ := List.mem_map.mp hb
    obtain ⟨i', hi', rfl⟩ := List.mem_map.mp hb'
    obtain ⟨f, hf, hitem⟩ := List.mem_filterMap.mp hi
    obtain ⟨g, hg, hitem'⟩ := List.mem_filterMap.mp hi'
    obtain ⟨name, value, hassigned, -, rfl⟩ := Finding.itemIn_eq_some.mp hitem
    obtain ⟨name', value', hassigned', -, rfl⟩ := Finding.itemIn_eq_some.mp hitem'
    have hsame := h f g (mem_adoptedFindings.mp hf) (mem_adoptedFindings.mp hg)
      (List.append_cancel_left hkey)
    rw [hassigned, hassigned'] at hsame
    exact Option.some.inj hsame

end

end

/-! ## What the files have -/

/-- A line that is a comment assigns nothing. -/
theorem parseDotenv_comment {line : Str} (h : line.head? = some '#') (hline : '\n' ∉ line) :
    parseDotenv line = [] := by
  obtain ⟨rest, rfl⟩ : ∃ rest, line = '#' :: rest := by
    cases line with
    | nil => cases h
    | cons c rest =>
      obtain rfl := Option.some.inj h
      exact ⟨rest, rfl⟩
  have htrim : Str.trim ('#' :: rest) = '#' :: Str.trimEnd rest := by
    have hstart : Str.trimStart ('#' :: rest) = '#' :: rest :=
      Str.trimStart_eq_self fun c hc => by
        obtain rfl := Option.some.inj hc
        decide
    rw [Str.trim, hstart, Str.trimEnd_cons (by decide)]
  have hnone : parseDotenvLine ('#' :: rest) = none := by
    unfold parseDotenvLine
    rw [htrim]
    rfl
  rw [parseDotenv, Str.lines_of_notMem hline, if_neg (List.cons_ne_nil _ _),
    List.filterMap_cons_none hnone, List.filterMap_nil]

theorem adoptedText_eq {new : List Str} (h : new ≠ []) :
    adoptedText new = new.flatMap (· ++ ['\n']) :=
  Str.join_append_sep ['\n'] h

/-- The lines of the text that is written. -/
theorem lines_adoptedText {new : List Str} (hne : new ≠ []) (h : ∀ line ∈ new, '\n' ∉ line) :
    Str.lines (adoptedText new) = new.map Str.stripCr := by
  rw [adoptedText_eq hne, Str.lines_flatMap h]

theorem Finding.pointer_last {pre name : Str} {f : Finding} :
    (f.pointer pre name).getLast? ≠ some '\r' := by
  rw [pointer, List.getLast?_append]
  show some ')' ≠ some '\r'
  decide

theorem Finding.mem_pointer {pre name : Str} {f : Finding} {c : Char}
    (h : c ∈ pre ++ f.suggestedKey) : c ∈ f.pointer pre name := by
  rw [pointer]
  simp only [List.mem_append] at h ⊢
  tauto

/-- Of a line and what replaces it: the value that the line assigns is in the
vault, under the key that the pointer names. -/
def LineReplaced (pre : Str) (findings : List Finding) (body : VaultBody) (q : Path) (i : Nat)
    (line line' : Str) : Prop :=
  ∃ f ∈ findings, f.path = q ∧ i = f.lineNumber - 1 ∧ ∃ name value,
    (parseDotenv line).head? = some (name, value) ∧ line' = f.pointer pre name ∧
      body.value? (pre ++ f.suggestedKey) = some value

/-- Every line of a file stays, or is replaced. -/
structure LinesReplaced (pre : Str) (findings : List Finding) (body : VaultBody) (q : Path)
    (old new : List Str) : Prop where
  length : new.length = old.length
  lines : ∀ i line, old[i]? = some line → ∃ line', new[i]? = some line' ∧
    (line' = line ∨ LineReplaced pre findings body q i line line')

theorem LinesReplaced.refl {pre : Str} {findings : List Finding} {body : VaultBody} {q : Path}
    (lines : List Str) : LinesReplaced pre findings body q lines lines :=
  ⟨rfl, fun _ line hline => ⟨line, hline, .inl rfl⟩⟩

/-- A name that is assigned has no line break. -/
theorem notMem_of_mem_parseDotenv {text name value : Str} (h : (name, value) ∈ parseDotenv text) :
    '\n' ∉ name := by
  obtain ⟨line, hline, hparse⟩ := List.mem_filterMap.mp h
  obtain ⟨left, right, -, heq, -, rfl, -, -⟩ := parseDotenvLine_eq_some.mp hparse
  have hleft : left.Sublist (assignmentOf line) := by
    rw [heq]
    exact List.sublist_append_left left _
  have hname := (Str.trim_sublist left).trans (hleft.trans (assignmentOf_sublist line))
  exact fun hmem => Str.notMem_of_mem_lines hline (hname.subset hmem)

/-- Of a file that is rewritten every line stays or is replaced, if and only if
the keys of the pointers have no line breaks and no other line ends in a
carriage return. -/
theorem LinesAdopted.linesReplaced_iff {pre : Str} {adopted findings : List Finding}
    {body : VaultBody} {q : Path} {old new : List Str} (h : LinesAdopted pre adopted old new)
    (hold : ∀ line ∈ old, '\n' ∉ line) (hgiven : adopted ≠ [])
    (hadopted : ∀ f ∈ adopted, f ∈ findings ∧ f.path = q)
    (hstored : ∀ f ∈ adopted, ∀ name value, f.assignment old = some (name, value) →
      body.value? (pre ++ f.suggestedKey) = some value) :
    LinesReplaced pre findings body q old (Str.lines (adoptedText new)) ↔
      (∀ f ∈ adopted, '\n' ∉ pre ++ f.suggestedKey) ∧
        ∀ i line, old[i]? = some line → line.getLast? = some '\r' →
          ∃ f ∈ adopted, i = f.lineNumber - 1 := by
  have hne : new ≠ [] := by
    obtain ⟨f, hf⟩ := List.exists_mem_of_ne_nil _ hgiven
    obtain ⟨name, value, -, hpointer⟩ := h.pointers f hf
    rintro rfl
    cases hpointer
  constructor
  · intro hreplaced
    have hbreaks : ∀ line ∈ new, '\n' ∉ line := by
      refine Str.notMem_of_length_lines hne ?_
      rw [← adoptedText_eq hne, hreplaced.length, h.length]
    refine ⟨fun f hf hmem => ?_, fun i line hline hcr => ?_⟩
    · obtain ⟨name, value, -, hpointer⟩ := h.pointers f hf
      exact hbreaks _ (List.mem_of_getElem? hpointer) (Finding.mem_pointer hmem)
    · by_contra hnot
      -- The line is not rewritten, and loses its end.
      have hnew : new[i]? = some line := by
        rw [h.others i fun f hf heq => hnot ⟨f, hf, heq⟩, hline]
      obtain ⟨line', hline', hcase⟩ := hreplaced.lines i line hline
      rw [lines_adoptedText hne hbreaks, List.getElem?_map, hnew] at hline'
      have hshort : Str.stripCr line = line.dropLast := if_pos hcr
      obtain rfl : line.dropLast = line' := hshort ▸ Option.some.inj hline'
      obtain ⟨s, rfl⟩ : ∃ s, line = s ++ ['\r'] := List.getLast?_eq_some_iff.mp hcr
      rw [List.dropLast_concat] at hcase
      obtain heq | ⟨f, -, -, -, name, value, hparse, rfl, -⟩ := hcase
      · simpa using congrArg List.length heq
      · rw [parseDotenv_comment (by rfl) (hbreaks _ (List.mem_of_getElem? hnew))] at hparse
        cases hparse
  · rintro ⟨hkeys, hends⟩
    have hbreaks : ∀ line ∈ new, '\n' ∉ line := by
      intro line hline
      obtain ⟨i, hi⟩ := List.mem_iff_getElem?.mp hline
      by_cases hat : ∃ f ∈ adopted, i = f.lineNumber - 1
      · obtain ⟨f, hf, rfl⟩ := hat
        obtain ⟨name, value, hassigned, hpointer⟩ := h.pointers f hf
        rw [hpointer] at hi
        cases hi
        obtain ⟨line, -, hparse⟩ := Option.bind_eq_some_iff.mp hassigned
        have hname := notMem_of_mem_parseDotenv (List.mem_of_head? hparse)
        have hkey := hkeys f hf
        simp only [Finding.pointer, List.mem_append, not_or] at hkey ⊢
        exact ⟨⟨⟨⟨by decide, hname⟩, by decide⟩, hkey⟩, by decide⟩
      · rw [h.others i fun f hf heq => hat ⟨f, hf, heq⟩] at hi
        exact hold line (List.mem_of_getElem? hi)
    rw [lines_adoptedText hne hbreaks]
    refine ⟨by rw [List.length_map, h.length], fun i line hline => ?_⟩
    rw [List.getElem?_map]
    by_cases hat : ∃ f ∈ adopted, i = f.lineNumber - 1
    · obtain ⟨f, hf, rfl⟩ := hat
      obtain ⟨name, value, hassigned, hpointer⟩ := h.pointers f hf
      refine ⟨f.pointer pre name, ?_, .inr
        ⟨f, (hadopted f hf).1, (hadopted f hf).2, rfl, name, value,
        ?_, rfl, hstored f hf name value hassigned⟩⟩
      · rw [hpointer]
        exact congrArg some (Str.stripCr_eq_self Finding.pointer_last)
      · rwa [Finding.assignment, hline] at hassigned
    · refine ⟨line, ?_, .inl rfl⟩
      rw [h.others i fun f hf heq => hat ⟨f, hf, heq⟩, hline]
      exact congrArg some (Str.stripCr_eq_self fun hcr => hat (hends i line hline hcr))

/-! ## The command -/

/-- Findings of dotenv files are on lines, which are counted from one, of files
that are none of the vault's. -/
structure SourcesApart (path : Path) (findings : List Finding) : Prop where
  lines : ∀ f ∈ findings, isDotenvFile f.path = true → f.lineNumber ≠ 0
  files : ∀ f ∈ findings, isDotenvFile f.path = true → f.path ∉ vaultFiles path

theorem SourcesApart.adopting {path : Path} {findings : List Finding}
    (h : SourcesApart path findings) : FindingsApart path (envFindings [] findings) :=
  ⟨fun f hf => h.lines f (mem_envFindings hf).1 (dotenv_of_mem_envFindings hf),
    fun f hf => h.files f (mem_envFindings hf).1 (dotenv_of_mem_envFindings hf)⟩

/-- A file stays, or it is a dotenv file and each of its lines stays or is
replaced. -/
def FileReplaced [JsonText] (pre : Str) (findings : List Finding) (path q : Path)
    (before after : Path → Option Contents) : Prop :=
  after q = before q ∨ isDotenvFile q = true ∧ ∃ text text' body,
    fileText before q = some text ∧ fileText after q = some text' ∧ Entries (after path) body ∧
      LinesReplaced pre findings body q (Str.lines text) (Str.lines text')

/-- Files that are no dotenv files stay. The others are written only when the
vault is saved and verified, and then each of their lines stays or is
replaced. -/
structure AdoptsSafely [JsonText] (path : Path) (w : Disk) (unlock : Unlock)
    (findings : List Finding) (pre : Str) (force : Bool) : Prop where
  sources : ∀ (m : Machine) (q : Path), q ∉ vaultFiles path → isDotenvFile q = false →
    ((adoptFindings path unlock findings pre force).run m w).2.fs q = w.fs q
  deferred : ∀ m : Machine, (adoptFindings path unlock findings pre force).run m w = (do
    let r ← adoptVerified path unlock findings pre force
    rewriteFiles r.writes
    pure r.outcome : Prog AdoptOutcome).run m w
  unwritten : ∀ (m : Machine) (q : Path), q ∉ vaultFiles path →
    ((adoptVerified path unlock findings pre force).run m w).2.fs q = w.fs q
  verified : ∀ (m : Machine) (r : Verified) (u : Disk),
    (adoptVerified path unlock findings pre force).run m w = (.ok r, u) → r.writes ≠ [] →
      ∃ body, Entries (u.fs path) body ∧ ∀ p ∈ r.stored, body.value? p.1 = some p.2
  refused : ∀ (m : Machine) (e : Halt) (u : Disk),
    (adoptVerified path unlock findings pre force).run m w = (.error e, u) →
      (adoptFindings path unlock findings pre force).run m w = (.error e, u)
  replaced : ∀ (m : Machine) (outcome : AdoptOutcome) (u : Disk), m.Faultless →
    (adoptFindings path unlock findings pre force).run m w = (.ok outcome, u) →
      ∀ q ∉ vaultFiles path, FileReplaced pre findings path q w.fs u.fs

/-- The keys of the pointers have no line breaks, and in the files with
pointers no other line ends in a carriage return. -/
structure PointersFit [JsonText] (pre : Str) (force : Bool) (body : VaultBody)
    (fs : Path → Option Contents) (findings : List Finding) : Prop where
  keys : ∀ f, Adopted pre force body fs findings f → '\n' ∉ pre ++ f.suggestedKey
  ends : ∀ f, Adopted pre force body fs findings f → ∀ text, fileText fs f.path = some text →
    ∀ i line, (Str.lines text)[i]? = some line → line.getLast? = some '\r' →
      ∃ g, Adopted pre force body fs findings g ∧ g.path = f.path ∧ i = g.lineNumber - 1

section

variable [JsonText] {m : Machine} {path : Path} {w u : Disk} {unlock : Unlock}
  {findings : List Finding} {pre : Str} {force : Bool} {body : VaultBody} {outcome : AdoptOutcome}

/-- Only the findings of dotenv files count. -/
theorem adoptFindings_run_envFindings : (adoptFindings path unlock findings pre force).run m w = (do
    let outcome ← adoptFindings path unlock (envFindings [] findings) pre force
    pure { outcome with skippedSource := findings.filter fun f => !isDotenvFile f.path } :
      Prog AdoptOutcome).run m w := by
  unfold adoptFindings
  dsimp only
  rw [envFindings_envFindings]
  by_cases henv : envFindings [] findings = []
  · rw [if_pos henv, if_pos henv]
    rfl
  · simp only [if_neg henv, bind_assoc, pure_bind]

/-- What a run that succeeds leaves. -/
theorem adoptFindings_leaves (hm : m.Faultless) (hapart : SourcesApart path findings)
    (hopens : unlock.Opens path (w.fs path) body)
    (hok : (adoptFindings path unlock findings pre force).run m w = (.ok outcome, u)) :
    (∃ body', Saves path w body (adoptedItems pre force body w.fs findings) body' u) ∧
      SameValues pre force body w.fs findings ∧ ∀ q ∉ vaultFiles path, u.fs q = written w.fs
        (rewrites pre force w.fs body.view (findingsByFile (envFindings [] findings))) q := by
  rw [← agree_adoptedItems]
  rw [adoptFindings_run_envFindings] at hok
  obtain ⟨outcome', v, hrun, hrest⟩ := Fx.bind_eq_ok.mp hok
  cases hrest
  by_cases hgiven : envFindings [] findings = []
  · rw [adoptFindings, envFindings_envFindings, if_pos hgiven] at hrun
    cases hrun
    have hnone : findingsByFile (envFindings [] findings) = [] := by
      rw [hgiven]
      simp [findingsByFile]
    rw [adoptedItems, hnone, adoptItems, List.flatMap_nil, taken_nil]
    exact ⟨⟨body, hopens.entries, hopens.entries, (putAll_nil _).symm⟩, fun _ hb =>
      absurd hb List.not_mem_nil, fun _ _ => rfl⟩
  · have h :=
      adoptFindings_rewrites hm hapart.adopting (by rwa [envFindings_envFindings]) hopens hrun
    rw [adoptedItems, envFindings_envFindings] at h
    exact h

/-- A run succeeds if the values agree and the clock is right. -/
theorem adoptFindings_succeeds (hapart : SourcesApart path findings)
    (hopens : unlock.Opens path (w.fs path) body)
    (hsame : SameValues pre force body w.fs findings) :
    ∃ (m : Machine) (outcome : AdoptOutcome) (u : Disk), m.Faultless ∧
      (adoptFindings path unlock findings pre force).run m w = (.ok outcome, u) := by
  by_cases hgiven : envFindings [] findings = []
  · refine ⟨.quiet, ⟨[], [], findings.filter fun f => !isDotenvFile f.path, []⟩, w,
      Machine.quiet_faultless, ?_⟩
    unfold adoptFindings
    dsimp only
    rw [if_pos hgiven]
    rfl
  · have htask : AdoptTask path w unlock (envFindings [] findings) pre force body
        (adoptedItems pre force body w.fs findings) := by
      refine ⟨by rwa [envFindings_envFindings], hopens, ?_⟩
      rw [adoptedItems, envFindings_envFindings]
    obtain ⟨m, msg, outcome, body', u, hm, -, -, hrun⟩ := adoptFindings_timed hapart.adopting htask
    rw [if_pos (agree_adoptedItems.mpr hsame)] at hrun
    refine ⟨m, { outcome with skippedSource := findings.filter fun f => !isDotenvFile f.path }, u,
      hm, ?_⟩
    rw [adoptFindings_run_envFindings, Fx.bind_run_ok hrun]
    rfl

/-- A file with findings that are adopted is rewritten with their pointers. -/
theorem fileReplaced_iff (hapart : SourcesApart path findings) {body' : VaultBody}
    (hsaves : Saves path w body (adoptedItems pre force body w.fs findings) body' u)
    (hsame : SameValues pre force body w.fs findings)
    (hfiles : ∀ q ∉ vaultFiles path, u.fs q = written w.fs
        (rewrites pre force w.fs body.view (findingsByFile (envFindings [] findings))) q)
    {f : Finding} (hf : Adopted pre force body w.fs findings f) :
    FileReplaced pre findings path f.path w.fs u.fs ↔
      (∀ g, Adopted pre force body w.fs findings g → g.path = f.path →
        '\n' ∉ pre ++ g.suggestedKey) ∧ ∀ text, fileText w.fs f.path = some text →
          ∀ i line, (Str.lines text)[i]? = some line → line.getLast? = some '\r' →
            ∃ g, Adopted pre force body w.fs findings g ∧
              g.path = f.path ∧ i = g.lineNumber - 1 := by
  obtain ⟨hwrites, hpointed⟩ := @rewrites_adoptedFindings _ pre force w.fs body findings
    hapart.adopting.lines
  obtain ⟨⟨q, content⟩, hwrite, hq⟩ := List.mem_map.mp (hpointed f hf)
  obtain rfl : q = f.path := hq
  obtain ⟨-, text, new, htext, rfl, hadopted⟩ := hwrites _ hwrite
  replace htext : fileText w.fs f.path = some text := htext
  replace hadopted : LinesAdopted pre
      ((adoptedFindings pre force body w.fs findings).filter fun g =>
      g.path = f.path) (Str.lines text) new := hadopted
  have hvault : f.path ∉ vaultFiles path :=
    hapart.files f (mem_envFindings hf.given).1 (dotenv_of_mem_envFindings hf.given)
  have hafter : fileText u.fs f.path = some (adoptedText new) := by
    rw [fileText, hfiles _ hvault, written_of_mem (nodup_rewrites (nodup_findingsByFile _)) hwrite]
    rfl
  have hmem : ∀ g,
      g ∈ (adoptedFindings pre force body w.fs findings).filter (fun g => g.path = f.path) ↔
      Adopted pre force body w.fs findings g ∧ g.path = f.path := by
    intro g
    rw [List.mem_filter, mem_adoptedFindings, decide_eq_true_iff]
  have hreplaced := @LinesAdopted.linesReplaced_iff pre _ findings body' f.path _ _ hadopted
    (fun line => Str.notMem_of_mem_lines) (List.ne_nil_of_mem ((hmem f).mpr ⟨hf, rfl⟩))
    (fun g hg => ⟨(mem_envFindings ((hmem g).mp hg).1.given).1, ((hmem g).mp hg).2⟩) ?_
  swap
  · intro g hg name value hassignment
    obtain ⟨hg, hpath⟩ := (hmem g).mp hg
    obtain ⟨name', value', hassigned, hvalue⟩ := hg.assigns
    have hsameAssignment : g.assigned w.fs = some (name, value) := by
      rw [Finding.assigned, hpath, htext]
      exact hassignment
    cases hassigned.symm.trans hsameAssignment
    refine hsaves.value? (agree_adoptedItems.mpr hsame)
      (i := (pre ++ g.suggestedKey, value, tierUseOnly)) ?_
    rw [adoptedItems_eq]
    exact List.mem_filterMap.mpr ⟨g, mem_adoptedFindings.mpr hg,
      Finding.itemIn_eq_some.mpr ⟨name, value, hassigned, hvalue, rfl⟩⟩
  have hfile : FileReplaced pre findings path f.path w.fs u.fs ↔
      LinesReplaced pre findings body' f.path (Str.lines text) (Str.lines (adoptedText new)) := by
    constructor
    · rintro (hstays | ⟨-, text₁, text₂, body₁, htext₁, htext₂, hentries, hlines₁⟩)
      · rw [fileText, hstays, ← fileText, htext] at hafter
        rw [← Option.some.inj hafter]
        exact .refl _
      · cases htext.symm.trans htext₁
        cases hafter.symm.trans htext₂
        cases hsaves.after.unique hentries
        exact hlines₁
    · exact fun hlines₁ => .inr ⟨dotenv_of_mem_envFindings hf.given, text, _, body', htext, hafter,
        hsaves.after, hlines₁⟩
  rw [hfile, hreplaced]
  simp only [hmem, htext, Option.some.injEq, forall_eq', and_imp, and_assoc]

/-- `scan --adopt` is safe for the files if and only if the pointers fit into
them, in every vault where it stores the values that it finds. -/
theorem adopt_safe_iff (hapart : SourcesApart path findings) :
    AdoptsSafely path w unlock findings pre force ↔ ∀ body, unlock.Opens path (w.fs path) body →
      SameValues pre force body w.fs findings → PointersFit pre force body w.fs findings := by
  constructor
  · intro h body hopens hsame
    obtain ⟨m, outcome, u, hm, hok⟩ := adoptFindings_succeeds hapart hopens hsame
    obtain ⟨⟨body', hsaves⟩, -, hfiles⟩ := adoptFindings_leaves hm hapart hopens hok
    have hfits := fun f (hf : Adopted pre force body w.fs findings f) =>
      (fileReplaced_iff hapart hsaves hsame hfiles hf).mp (h.replaced m outcome u hm hok f.path
        (hapart.files f (mem_envFindings hf.given).1 (dotenv_of_mem_envFindings hf.given)))
    exact ⟨fun f hf => (hfits f hf).1 f hf rfl, fun f hf => (hfits f hf).2⟩
  · intro h
    refine ⟨fun m q hq hsource => adoptFindings_fs hq fun hadoptable => ?_,
      fun m => adoptFindings_run_eq, fun m q hq => adoptVerified_fs hq,
      fun m r u => adoptVerified_stored, fun m e u hrun => ?_, fun m outcome u hm hok q hq => ?_⟩
    · rw [hadoptable.1] at hsource
      cases hsource
    · rw [adoptFindings_run_eq, Fx.bind_run_error hrun]
    · by_cases hopens : ∃ body, unlock.Opens path (w.fs path) body
      · obtain ⟨body, hopens⟩ := hopens
        obtain ⟨⟨body', hsaves⟩, hsame, hfiles⟩ := adoptFindings_leaves hm hapart hopens hok
        have hfits := h body hopens hsame
        by_cases hadopted : ∃ f, Adopted pre force body w.fs findings f ∧ f.path = q
        · obtain ⟨f, hf, rfl⟩ := hadopted
          exact (fileReplaced_iff hapart hsaves hsame hfiles hf).mpr
            ⟨fun g hg _ => hfits.keys g hg, hfits.ends f hf⟩
        · -- The files that are rewritten have findings that are adopted.
          refine .inl ((hfiles q hq).trans (written_of_notMem fun write hwrite heq => hadopted ?_))
          obtain ⟨⟨f, hf, hpath⟩, -⟩ :=
            (rewrites_adoptedFindings hapart.adopting.lines).1 write hwrite
          exact ⟨f, mem_adoptedFindings.mp hf, hpath.trans heq⟩
      · -- Nothing is written unless there is nothing to store.
        obtain ⟨msg, v, hopen, -⟩ := openVault_refused hm (not_exists.mp hopens)
        unfold adoptFindings at hok
        dsimp only at hok
        split at hok
        · cases hok
          exact .inl rfl
        · rw [Fx.bind_run_error hopen] at hok
          cases hok

end

/-- A file with an OpenAI key and another assignment. -/
def keyAndOther : Str :=
  "K=".toList ++ openaiKey ++ "\nX=2\n".toList

/-- A prefix without a line break, and a file whose lines have ends. -/
theorem adopt_safe_env :
    letI := noJsonText
    AdoptsSafely vaultJson (envDisk keyAndOther) pwUnlock
      [envFinding "openai-key".toList] "app/".toList false := by
  let _ := noJsonText
  have hadopted : ∀ f ∈ envFindings [] [envFinding "openai-key".toList],
      f = envFinding "openai-key".toList := by
    decide
  refine (adopt_safe_iff ⟨fun f hf _ => (envFinding_apart _).lines f hf,
    fun f hf _ => (envFinding_apart _).files f hf⟩).mpr fun body hopens hsame => ⟨?_, ?_⟩
  · intro f hf
    rw [hadopted f hf.given]
    decide
  · intro f hf text htext i line hline hcr
    rw [hadopted f hf.given] at htext
    obtain rfl : keyAndOther = text := Option.some.inj htext
    have hends : ∀ line ∈ Str.lines keyAndOther, line.getLast? ≠ some '\r' := by
      decide
    exact absurd hcr (hends line (List.mem_of_getElem? hline))

/-- A prefix with a line break makes two lines of a pointer. -/
theorem adopt_not_safe :
    ¬∀ (_ : JsonText) (path : Path) (w : Disk) (unlock : Unlock) (findings : List Finding)
      (pre : Str) (force : Bool), SourcesApart path findings →
      AdoptsSafely path w unlock findings pre force := by
  intro h
  let _ := noJsonText
  have hsafe := h noJsonText vaultJson (envDisk keyAndOther) pwUnlock
    [envFinding "openai-key".toList] "a\nb/".toList false
    ⟨fun f hf _ => (envFinding_apart _).lines f hf, fun f hf _ => (envFinding_apart _).files f hf⟩
  have hok : ((adoptFindings vaultJson pwUnlock [envFinding "openai-key".toList] "a\nb/".toList
      false).run .quiet (envDisk keyAndOther)).1 =
      .ok ⟨["a\nb/openai/api_key".toList], [], [], []⟩ := by decide
  obtain ⟨u, hrun⟩ : ∃ u, (adoptFindings vaultJson pwUnlock [envFinding "openai-key".toList]
      "a\nb/".toList false).run .quiet (envDisk keyAndOther) =
      (.ok ⟨["a\nb/openai/api_key".toList], [], [], []⟩, u) := ⟨_, Prod.ext hok rfl⟩
  have hafter : fileText ((adoptFindings vaultJson pwUnlock [envFinding "openai-key".toList]
      "a\nb/".toList false).run .quiet (envDisk keyAndOther)).2.fs envArg.path =
      some "# K -> hearth-vault: a\nb/openai/api_key (value removed)\nX=2\n".toList := by
    decide
  rw [hrun] at hafter
  have hbefore : fileText (envDisk keyAndOther).fs envArg.path =
      some keyAndOther := rfl
  have hvault : envArg.path ∉ vaultFiles vaultJson :=
    (envFinding_apart "openai-key".toList).files _ List.mem_cons_self
  obtain hstays | ⟨-, text, text', body, htext, htext', -, hlines⟩ :=
    hsafe.replaced .quiet _ u Machine.quiet_faultless hrun envArg.path hvault
  · rw [fileText, hstays, ← fileText, hbefore] at hafter
    exact absurd hafter (by decide)
  · cases hbefore.symm.trans htext
    cases hafter.symm.trans htext'
    exact absurd hlines.length (by decide)

end HearthVault
