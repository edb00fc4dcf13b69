/-
HearthVault.Cli.AdoptRuns — `scan --adopt`, from the vault file before to the
vault file after.

Each finding has a binding for the vault, the assignment on its line under the
key that was suggested for it. The lines that `adopt_findings` rewrites are
none that it still has to read, so the bindings are those of the files as they
were (`adoptInFile_eq_ok`, `adoptFiles_eq_ok`).

The state of the loop has the lines of the file, which change under it. The
induction on the findings therefore says of the lines only that those of the
findings to come are the old ones (`LinesApart`, `fileItems_congr`); the step
has one case for each answer that `adopt_findings` has for a finding
(`adoptFinding_cases`). From there on the command is one of the storing
commands, with its ends and the case that is reached.
-/
import HearthVault.Cli.TransferRuns

namespace HearthVault

open Files Symbolic Calendar Bindings

/-! ## What findings have for the vault -/

/-- The assignment on the line of a finding. -/
def Finding.assignment (lines : List Str) (f : Finding) : Option (Str × Str) :=
  lines[f.lineNumber - 1]?.bind fun line => (parseDotenv line).head?

/-- The binding of a finding, where its line assigns a value. -/
def Finding.item (pre : Str) (lines : List Str) (f : Finding) : Option (Str × Str × UInt8) :=
  match f.assignment lines with
  | none => none
  | some (_, value) => if value = [] then none else some (pre ++ f.suggestedKey, value, tierUseOnly)

/-- The bindings of the findings of one file. -/
def fileItems (pre : Str) (lines : List Str) (findings : List Finding) :
    List (Str × Str × UInt8) :=
  findings.filterMap (Finding.item pre lines)

/-- No two findings are on one line. -/
def LinesApart (findings : List Finding) : Prop :=
  findings.Pairwise fun f g => f.lineNumber - 1 ≠ g.lineNumber - 1

theorem Finding.item_congr {pre : Str} {lines lines' : List Str} {f : Finding}
    (h : lines'[f.lineNumber - 1]? = lines[f.lineNumber - 1]?) :
    f.item pre lines' = f.item pre lines := by
  simp only [item, assignment, h]

/-- What a finding has for the vault is a value of the assignment on its line,
at the default tier. -/
theorem Finding.item_eq_some {pre : Str} {lines : List Str} {f : Finding}
    {i : Str × Str × UInt8} : f.item pre lines = some i ↔ ∃ name value,
      f.assignment lines = some (name, value) ∧ value ≠ [] ∧
        i = (pre ++ f.suggestedKey, value, tierUseOnly) := by
  unfold item
  cases f.assignment lines with
  | none => simp
  | some pair =>
    obtain ⟨name, value⟩ := pair
    by_cases hvalue : value = []
    · simp [hvalue]
    · simp [hvalue, eq_comm]

theorem fileItems_congr {pre : Str} {lines lines' : List Str} {findings : List Finding}
    (h : ∀ f ∈ findings, lines'[f.lineNumber - 1]? = lines[f.lineNumber - 1]?) :
    fileItems pre lines' findings = fileItems pre lines findings := by
  refine List.filterMap_congr fun f hf => ?_
  exact Finding.item_congr (h f hf)

/-- The line that is left of an assignment. -/
def Finding.pointer (pre : Str) (f : Finding) (name : Str) : Str :=
  "# ".toList ++ name ++ " -> hearth-vault: ".toList ++ (pre ++ f.suggestedKey) ++
    " (value removed)".toList

/-- The lines of a file after a finding is adopted. -/
def Finding.rewritten (pre : Str) (f : Finding) (lines : List Str) : List Str :=
  match f.assignment lines with
  | none => lines
  | some (name, _) => lines.set (f.lineNumber - 1) (f.pointer pre name)

/-- Adopting a finding rewrites its own line. -/
theorem Finding.rewritten_of_ne {pre : Str} {f : Finding} {lines : List Str} {i : Nat}
    (h : i ≠ f.lineNumber - 1) : (f.rewritten pre lines)[i]? = lines[i]? := by
  unfold rewritten
  split
  · rfl
  · exact List.getElem?_set_ne h.symm

/-! ## One finding -/

/-- Bindings have been adopted, in order. -/
structure Adopting (state : AdoptState) (items : List (Str × Str × UInt8)) (state' : AdoptState) :
    Prop where
  storing : Storing state.store items state'.store
  pairs : state'.storedPairs = state.storedPairs ++ keyValues items
  adopted : state'.adopted = state.adopted ++ items.map Prod.fst

namespace Adopting

variable {state state' state'' : AdoptState} {items items' : List (Str × Str × UInt8)}

theorem of_same (hstore : state'.store = state.store)
    (hpairs : state'.storedPairs = state.storedPairs)
    (hadopted : state'.adopted = state.adopted) : Adopting state [] state' :=
  ⟨hstore ▸ .refl _, by simp [hpairs, keyValues], by simp [hadopted]⟩

theorem trans (h : Adopting state items state') (h' : Adopting state' items' state'') :
    Adopting state (items ++ items') state'' :=
  ⟨h.storing.trans h'.storing, by simp [h'.pairs, h.pairs, keyValues],
    by simp [h'.adopted, h.adopted]⟩

end Adopting

/-- A finding has nothing for the vault, or its key is there already, or its
value is stored and its line is rewritten. -/
theorem adoptFinding_cases (pre : Str) (force : Bool) (f : Finding) (state : AdoptState) :
    (f.item pre state.lines = none ∧ ∃ errors,
      adoptFinding pre force f state = pure { state with errors }) ∨
    ∃ key value, f.item pre state.lines = some (key, value, tierUseOnly) ∧
      ((state.store.body.has key = true ∧ force = false ∧ ∃ skippedExisting,
        adoptFinding pre force f state = pure { state with skippedExisting }) ∨
      (¬(state.store.body.has key = true ∧ (!force) = true) ∧
        adoptFinding pre force f state = do
          let store ← state.store.set key value tierUseOnly
          pure { state with
            store
            storedPairs := state.storedPairs ++ [(key, value)]
            adopted := state.adopted ++ [key]
            lines := f.rewritten pre state.lines
            changed := true })) := by
  unfold adoptFinding
  dsimp only
  cases hline : state.lines[f.lineNumber - 1]? with
  | none =>
    exact .inl ⟨by simp [Finding.item, Finding.assignment, hline],
      (state.error f "line vanished before adopt").errors, rfl⟩
  | some line =>
    dsimp only
    cases hparse : (parseDotenv line).head? with
    | none =>
      exact .inl ⟨by simp [Finding.item, Finding.assignment, hline, hparse],
        (state.error f "could not parse KEY=value").errors, rfl⟩
    | some pair =>
      obtain ⟨varName, value⟩ := pair
      dsimp only
      by_cases hvalue : value = []
      · rw [if_pos hvalue]
        exact .inl ⟨by simp [Finding.item, Finding.assignment, hline, hparse, hvalue],
          (state.error f "empty value, skipped").errors, rfl⟩
      rw [if_neg hvalue]
      refine .inr ⟨pre ++ f.suggestedKey, value, ?_, ?_⟩
      · simp [Finding.item, Finding.assignment, hline, hparse, hvalue]
      by_cases hskip : state.store.body.has (pre ++ f.suggestedKey) = true ∧ (!force) = true
      · rw [if_pos hskip]
        exact .inl ⟨hskip.1, by simpa using hskip.2, _, rfl⟩
      · rw [if_neg hskip]
        have hrewritten : f.rewritten pre state.lines = state.lines.set (f.lineNumber - 1)
            (f.pointer pre varName) := by
          simp [Finding.rewritten, Finding.assignment, hline, hparse]
        rw [hrewritten]
        exact .inr ⟨hskip, rfl⟩

section

variable {m : Machine} {w w' : Disk} {pre : Str} {force : Bool} {state state' : AdoptState}

theorem adoptFinding_eq_ok {f : Finding}
    (h : (adoptFinding pre force f state).run m w = (.ok state', w')) :
    Adopting state (taken force state.store.body.view (fileItems pre state.lines [f])) state' ∧
      (∀ i, i ≠ f.lineNumber - 1 → state'.lines[i]? = state.lines[i]?) ∧ OnlyTime w w' := by
  rcases adoptFinding_cases pre force f state with ⟨hitem, errors, heq⟩ |
    ⟨key, value, hitem, ⟨hhas, rfl, skipped, heq⟩ | ⟨hnew, heq⟩⟩
  · rw [heq] at h
    cases h
    rw [fileItems, List.filterMap_cons_none hitem, List.filterMap_nil, taken_nil]
    exact ⟨.of_same rfl rfl rfl, fun _ _ => rfl, rfl⟩
  · rw [heq] at h
    cases h
    rw [fileItems, List.filterMap_cons_some hitem, List.filterMap_nil,
      taken_of_bound (by rwa [VaultBody.isSome_view]), taken_nil]
    exact ⟨.of_same rfl rfl rfl, fun _ _ => rfl, rfl⟩
  · rw [heq] at h
    obtain ⟨store, v, hset, h⟩ := Fx.bind_eq_ok.mp h
    cases h
    obtain ⟨hstoring, htime⟩ := set_eq_ok hset
    rw [fileItems, List.filterMap_cons_some hitem, List.filterMap_nil,
      taken_cons (by rwa [VaultBody.isSome_view]), taken_nil]
    exact ⟨⟨hstoring, rfl, rfl⟩, fun _ hi => Finding.rewritten_of_ne hi, htime⟩

theorem adoptInFile_eq_ok {findings : List Finding} (hlines : LinesApart findings)
    (h : (adoptInFile pre force findings state).run m w = (.ok state', w')) :
    Adopting state (taken force state.store.body.view (fileItems pre state.lines findings)) state' ∧
      OnlyTime w w' := by
  induction findings generalizing state w with
  | nil =>
    cases h
    rw [fileItems, List.filterMap_nil, taken_nil]
    exact ⟨.of_same rfl rfl rfl, rfl⟩
  | cons f rest ih =>
    obtain ⟨state₁, w₁, hfirst, h⟩ := Fx.bind_eq_ok.mp h
    obtain ⟨hnew, hrest⟩ := List.pairwise_cons.mp hlines
    obtain ⟨hadopting, hkept, htime⟩ := adoptFinding_eq_ok hfirst
    obtain ⟨hadopting', htime'⟩ := ih hrest h
    have hitems : fileItems pre state₁.lines rest = fileItems pre state.lines rest :=
      fileItems_congr fun g hg => hkept _ (Ne.symm (hnew g hg))
    have hcons : fileItems pre state.lines (f :: rest) =
        fileItems pre state.lines [f] ++ fileItems pre state.lines rest :=
      List.filterMap_append (l := [f])
    rw [hcons, taken_append, ← hadopting.storing.view]
    rw [hitems] at hadopting'
    exact ⟨hadopting.trans hadopting', htime.trans htime'⟩

/-- The findings of one file, at suitable times. -/
theorem adoptInFile_timed (old : VaultBody) {body : VaultBody} {lines : List Str}
    {findings : List Finding} (hlines : LinesApart findings) :
    ∃ times body', (∀ state : AdoptState, state.store.body = body →
        (∀ f ∈ findings, state.lines[f.lineNumber - 1]? = lines[f.lineNumber - 1]?) →
        ∃ state', Fx.Timed times (adoptInFile pre force findings state) state' ∧
          state'.store.body = body') ∧
      (taken force body.view (fileItems pre lines findings) = [] ∧ body' = body ∨
        Retimed old body') := by
  induction findings generalizing body with
  | nil =>
    refine ⟨[], body, fun state hbody _ => ⟨state, Fx.Timed.pure, hbody⟩, .inl ⟨?_, rfl⟩⟩
    rw [fileItems, List.filterMap_nil, taken_nil]
  | cons f rest ih =>
    obtain ⟨hnew, hrest⟩ := List.pairwise_cons.mp hlines
    have hsame : ∀ {state : AdoptState}, (∀ g ∈ f :: rest,
        state.lines[g.lineNumber - 1]? = lines[g.lineNumber - 1]?) →
        f.item pre state.lines = f.item pre lines :=
      fun h => Finding.item_congr (h f List.mem_cons_self)
    cases hitem : f.item pre lines with
    | none =>
      obtain ⟨times, body', hloop, hend⟩ := @ih body hrest
      refine ⟨times, body', fun state hbody hstate => ?_, ?_⟩
      · rcases adoptFinding_cases pre force f state with ⟨-, errors, heq⟩ | ⟨key, value, hsome, -⟩
        · unfold adoptInFile
          rw [heq]
          exact hloop _ hbody fun g hg => hstate g (List.mem_cons_of_mem _ hg)
        · rw [hsame hstate, hitem] at hsome
          cases hsome
      · rwa [fileItems, List.filterMap_cons_none hitem]
    | some i =>
      obtain ⟨name, value, -, -, rfl⟩ := Finding.item_eq_some.mp hitem
      rw [fileItems, List.filterMap_cons_some hitem]
      by_cases hskip : body.has (pre ++ f.suggestedKey) = true ∧ (!force) = true
      · obtain ⟨hhas, rfl⟩ : body.has (pre ++ f.suggestedKey) = true ∧ force = false := by
          simpa using hskip
        obtain ⟨times, body', hloop, hend⟩ := @ih body hrest
        rw [taken_of_bound (by rwa [VaultBody.isSome_view])]
        refine ⟨times, body', fun state hbody hstate => ?_, hend⟩
        rcases adoptFinding_cases pre false f state with ⟨hnone, -⟩ |
          ⟨key, value', hsome, ⟨-, -, skipped, heq⟩ | ⟨hfree, -⟩⟩
        · rw [hsame hstate, hitem] at hnone
          cases hnone
        · unfold adoptInFile
          rw [heq]
          exact hloop _ hbody fun g hg => hstate g (List.mem_cons_of_mem _ hg)
        · rw [hsame hstate, hitem] at hsome
          cases hsome
          exact absurd ⟨hbody ▸ hhas, rfl⟩ hfree
      · obtain ⟨now, body₁, hset, hview, hretimed, -⟩ := @set_timed body old
          (pre ++ f.suggestedKey) value tierUseOnly (by decide)
        obtain ⟨times, body', hloop, hend⟩ := @ih body₁ hrest
        rw [taken_cons (by rwa [VaultBody.isSome_view])]
        refine ⟨[now] ++ times, body', fun state hbody hstate => ?_, .inr ?_⟩
        · rcases adoptFinding_cases pre force f state with ⟨hnone, -⟩ |
            ⟨key, value', hsome, ⟨hhas, rfl, -⟩ | ⟨-, heq⟩⟩
          · rw [hsame hstate, hitem] at hnone
            cases hnone
          · rw [hsame hstate, hitem] at hsome
            cases hsome
            exact absurd ⟨hbody ▸ hhas, rfl⟩ hskip
          · rw [hsame hstate, hitem] at hsome
            cases hsome
            obtain ⟨state', hrest', hbody'⟩ := hloop { state with
              store := { state.store with body := body₁ }
              storedPairs := state.storedPairs ++ [(pre ++ f.suggestedKey, value)]
              adopted := state.adopted ++ [pre ++ f.suggestedKey]
              lines := f.rewritten pre state.lines
              changed := true } rfl fun g hg =>
                (Finding.rewritten_of_ne (Ne.symm (hnew g hg))).trans
                  (hstate g (List.mem_cons_of_mem _ hg))
            refine ⟨state', ?_, hbody'⟩
            unfold adoptInFile
            rw [heq]
            exact @Fx.Timed.bind _ _ _ [now] times _ _ _ _
              ((hset state.store hbody).bind Fx.Timed.pure) hrest'
        · obtain ⟨-, rfl⟩ | hend := hend
          · exact hretimed
          · exact hend

end

/-! ## The files -/

section

variable [JsonText]

/-- The text of a file that can be read. -/
def fileText (fs : Path → Option Contents) (q : Path) : Option Str :=
  (fs q).bind fun c => c.asText.toOption

/-- The bindings of the findings of all files. -/
def adoptItems (pre : Str) (fs : Path → Option Contents) (files : List (Path × List Finding)) :
    List (Str × Str × UInt8) :=
  files.flatMap fun file => match fileText fs file.1 with
    | some text => fileItems pre (Str.lines text) file.2
    | none => []

variable {m : Machine} {w w' : Disk} {pre : Str} {force : Bool} {state state' : AdoptState}
  (hm : m.Faultless)

include hm

/-- A file is read, or the error is caught. -/
theorem attempt_readText (q : Path) : ∃ r, Fx.Answers m (Fx.attempt (readText q)) w (.ok r) ∧
    fileText w.fs q = match r with | .ok text => some text | .error _ => none := by
  cases hfs : w.fs q with
  | none =>
    have hmissing : Fx.Answers m (readText q) w (.error (.err "No such file or directory")) :=
      (Fx.Answers.read_missing hm hfs).bind_error
    exact ⟨_, hmissing.attempt_err, by simp [fileText, hfs]⟩
  | some c =>
    have hread := readText_answers hm hfs
    cases htext : c.asText with
    | ok text =>
        exact ⟨.ok text, (htext ▸ hread).attempt, by simp [fileText, hfs, htext, Except.toOption]⟩
    | error e =>
      obtain ⟨msg, rfl⟩ := Contents.asText_plain c e htext
      exact ⟨_, (htext ▸ hread).attempt_err, by simp [fileText, hfs, htext, Except.toOption]⟩

theorem adoptFiles_eq_ok {files : List (Path × List Finding)} {writes : List (Path × Str)}
    (hlines : ∀ file ∈ files, LinesApart file.2)
    (h : (adoptFiles pre force files state).run m w = (.ok (state', writes), w')) :
    Adopting state (taken force state.store.body.view (adoptItems pre w.fs files)) state' ∧
      (∀ write ∈ writes, ∃ file ∈ files, write.1 = file.1) ∧ w'.fs = w.fs := by
  induction files generalizing state w writes with
  | nil =>
    cases h
    rw [adoptItems, List.flatMap_nil, taken_nil]
    exact ⟨.of_same rfl rfl rfl, nofun, rfl⟩
  | cons file rest ih =>
    obtain ⟨q, findings⟩ := file
    obtain ⟨r, ⟨v, hread, hframe⟩, htext⟩ := attempt_readText hm (w := w) q
    have hfs : v.fs = w.fs := funext fun p => hframe.fs p (by simp)
    unfold adoptFiles at h
    rw [Fx.bind_run_ok hread] at h
    rw [adoptItems, List.flatMap_cons]
    have hrest : ∀ file ∈ rest, LinesApart file.2 := fun file hf => hlines file (.tail _ hf)
    cases r with
    | error e =>
      obtain ⟨hadopting, hwrites, hfs'⟩ := ih hrest h
      rw [hfs] at hadopting hfs'
      refine ⟨?_, fun write hw => ?_, hfs'⟩
      · rw [htext]
        exact ⟨hadopting.storing, hadopting.pairs, hadopting.adopted⟩
      · obtain ⟨file, hf, hpath⟩ := hwrites write hw
        exact ⟨file, .tail _ hf, hpath⟩
    | ok text =>
      obtain ⟨state₁, v₁, hfile, h⟩ := Fx.bind_eq_ok.mp h
      obtain ⟨⟨state₂, writes₂⟩, v₂, hfiles, h⟩ := Fx.bind_eq_ok.mp h
      cases h
      obtain ⟨hfirst, htime⟩ := adoptInFile_eq_ok (hlines _ List.mem_cons_self) hfile
      obtain ⟨hadopting, hwrites, hfs'⟩ := ih hrest hfiles
      rw [htime.fs, hfs] at hadopting hfs'
      rw [htext, taken_append, ← hfirst.storing.view]
      have hstart : Adopting state _ state₁ :=
        ⟨hfirst.storing, hfirst.pairs, hfirst.adopted⟩
      refine ⟨hstart.trans hadopting, fun write hw => ?_, hfs'⟩
      obtain hw | hw := List.mem_append.mp hw
      · split at hw
        · rw [List.mem_singleton.mp hw]
          exact ⟨_, List.mem_cons_self, rfl⟩
        · cases hw
      · obtain ⟨file, hf, hpath⟩ := hwrites write hw
        exact ⟨file, .tail _ hf, hpath⟩

omit hm in
/-- All files, at suitable times. -/
theorem adoptFiles_timed (old : VaultBody) {body : VaultBody} {fs : Path → Option Contents}
    {files : List (Path × List Finding)} (hlines : ∀ file ∈ files, LinesApart file.2) :
    ∃ (times : List Int) (body' : VaultBody),
      (∀ (m : Machine) (w : Disk) (state : AdoptState), m.Faultless →
        (∀ file ∈ files, w.fs file.1 = fs file.1) →
        (∀ i t, times[i]? = some t → m.clock (w.ticks + i) = t) → state.store.body = body →
        ∃ state' writes w',
          (adoptFiles pre force files state).run m w = (.ok (state', writes), w') ∧
          state'.store.body = body') ∧
      (taken force body.view (adoptItems pre fs files) = [] ∧ body' = body ∨
        Retimed old body') := by
  induction files generalizing body with
  | nil =>
    refine ⟨[], body, fun m w state _ _ _ hbody => ⟨state, [], w, rfl, hbody⟩, .inl ⟨?_, rfl⟩⟩
    rw [adoptItems, List.flatMap_nil, taken_nil]
  | cons file rest ih =>
    obtain ⟨q, findings⟩ := file
    have hrest : ∀ file ∈ rest, LinesApart file.2 := fun file hf => hlines file (.tail _ hf)
    rw [adoptItems, List.flatMap_cons]
    cases htext : fileText fs q with
    | none =>
      obtain ⟨times, body', hloop, hend⟩ := @ih body hrest
      refine ⟨times, body', fun m w state hm hfs hclock hbody => ?_, hend⟩
      obtain ⟨r, ⟨v, hread, hframe⟩, hr⟩ := attempt_readText hm (w := w) q
      rw [fileText, hfs _ List.mem_cons_self, ← fileText, htext] at hr
      cases r with
      | ok text => cases hr
      | error e =>
        unfold adoptFiles
        rw [Fx.bind_run_ok hread]
        refine hloop m v _ hm (fun file hf => ?_) (fun i t ht => ?_) hbody
        · rw [hframe.fs file.1 (by simp), hfs file (.tail _ hf)]
        · rw [hframe.ticks]
          exact hclock i t ht
    | some text =>
      obtain ⟨times₁, body₁, hfile, hend₁⟩ := @adoptInFile_timed pre force old body (Str.lines text)
        findings (hlines _ List.mem_cons_self)
      obtain ⟨times₂, body₂, hloop, hend₂⟩ := @ih body₁ hrest
      refine ⟨times₁ ++ times₂, body₂, fun m w state hm hfs hclock hbody => ?_, ?_⟩
      · obtain ⟨r, ⟨v, hread, hframe⟩, hr⟩ := attempt_readText hm (w := w) q
        rw [fileText, hfs _ List.mem_cons_self, ← fileText, htext] at hr
        cases r with
        | error e => cases hr
        | ok text' =>
          cases hr
          obtain ⟨state₁, htimed, hbody₁⟩ :=
            hfile { state with lines := Str.lines text, changed := false } hbody fun _ _ => rfl
          have hadopt := htimed m v fun i t ht => by
            rw [hframe.ticks]
            refine hclock i t ?_
            rw [List.getElem?_append_left (List.getElem?_eq_some_iff.mp ht).1, ht]
          obtain ⟨state₂, writes, w', hfiles, hbody₂⟩ := hloop m
            { v with ticks := v.ticks + times₁.length } state₁ hm
            (fun file hf => (hframe.fs file.1 (by simp)).trans (hfs file (.tail _ hf)))
            (fun i t ht => by
              rw [hframe.ticks, Nat.add_assoc]
              refine hclock _ t ?_
              rw [List.getElem?_append_right (by omega), Nat.add_sub_cancel_left, ht]) hbody₁
          unfold adoptFiles
          rw [Fx.bind_run_ok hread]
          dsimp only
          rw [Fx.bind_run_ok hadopt, Fx.bind_run_ok hfiles]
          exact ⟨_, _, _, rfl, hbody₂⟩
      · rw [taken_append]
        obtain ⟨hnone₂, rfl⟩ | hend₂ := hend₂
        · obtain ⟨hnone₁, rfl⟩ | hend₁ := hend₁
          · rw [hnone₁, putAll_nil]
            exact .inl ⟨hnone₂, rfl⟩
          · exact .inr hend₁
        · exact .inr hend₂

end

/-! ## Findings by file -/

theorem mem_envFindings {seen : List (Path × Nat)} {findings : List Finding} {f : Finding}
    (h : f ∈ envFindings seen findings) : f ∈ findings ∧ (f.path, f.lineNumber) ∉ seen := by
  induction findings generalizing seen with
  | nil => cases h
  | cons g rest ih =>
    unfold envFindings at h
    split at h
    · exact ⟨.tail _ (ih h).1, (ih h).2⟩
    · rename_i hnew
      obtain rfl | h := List.mem_cons.mp h
      · exact ⟨.head _, (not_or.mp hnew).2⟩
      · exact ⟨.tail _ (ih h).1, fun hseen => (ih h).2 (.tail _ hseen)⟩

/-- The findings are one a line. -/
theorem envFindings_pairwise (seen : List (Path × Nat)) (findings : List Finding) :
    (envFindings seen findings).Pairwise fun f g =>
      (f.path, f.lineNumber) ≠ (g.path, g.lineNumber) := by
  induction findings generalizing seen with
  | nil => exact .nil
  | cons f rest ih =>
    unfold envFindings
    split
    · exact ih seen
    · refine .cons (fun g hg heq => (mem_envFindings hg).2 ?_) (ih _)
      rw [← heq]
      exact .head _

theorem pathComponents_injective : Function.Injective pathComponents := by
  intro p q h
  obtain ⟨hdir, hname⟩ := List.append_inj' h rfl
  have hsplit := congrArg (List.intercalate ['/']) hdir
  rw [Str.intercalate_split, Str.intercalate_split] at hsplit
  cases p
  cases q
  simp_all

/-- The findings of each file, in order, by the components of its path. -/
def Grouped (findings : List Finding)
    (files : Std.ExtTreeMap (List Str) (Path × List Finding) compare) : Prop :=
  ∀ k, files[k]? = match findings.filter fun f => pathComponents f.path = k with
    | [] => none
    | f :: rest => some (f.path, f :: rest)

theorem grouped_foldl {files : Std.ExtTreeMap (List Str) (Path × List Finding) compare}
    {before : List Finding} (h : Grouped before files) (findings : List Finding) :
    Grouped (before ++ findings) (findings.foldl
      (fun files f => files.alter (pathComponents f.path) fun
        | some (path, fs) => some (path, fs ++ [f])
        | none => some (f.path, [f])) files) := by
  induction findings generalizing before files with
  | nil => simpa using h
  | cons f rest ih =>
    rw [List.append_cons, List.foldl_cons]
    refine ih fun k => ?_
    rw [Std.ExtTreeMap.getElem?_alter, List.filter_append]
    by_cases hk : pathComponents f.path = k
    · subst hk
      have hbefore := h (pathComponents f.path)
      rw [if_pos (by simp), hbefore]
      cases before.filter fun g => pathComponents g.path = pathComponents f.path <;> simp
    · have hbefore := h k
      rw [if_neg (by simpa using hk), hbefore]
      simp [hk]

theorem findingsByFile_grouped (findings : List Finding) :
    ∃ files, Grouped findings files ∧ findingsByFile findings = files.toList.map Prod.snd :=
  ⟨_, @grouped_foldl ∅ [] (fun k => by simp) findings, rfl⟩

theorem mem_findingsByFile {findings : List Finding} {q : Path} {fs : List Finding} :
    (q, fs) ∈ findingsByFile findings ↔
      fs ≠ [] ∧ fs = findings.filter fun f => f.path = q := by
  obtain ⟨files, hgrouped, hfiles⟩ := findingsByFile_grouped findings
  have hsame : ∀ p : Path, (findings.filter fun f => pathComponents f.path = pathComponents p) =
      findings.filter fun f => f.path = p := by
    intro p
    simp only [pathComponents_injective.eq_iff]
  rw [hfiles]
  simp only [List.mem_map, Prod.exists, Std.ExtTreeMap.mem_toList_iff_getElem?_eq_some]
  constructor
  · rintro ⟨k, q', fs', hk, heq⟩
    cases heq
    replace hk := (hgrouped k).symm.trans hk
    cases hfilter : findings.filter fun f => pathComponents f.path = k with
    | nil =>
      rw [hfilter] at hk
      cases hk
    | cons f rest =>
      rw [hfilter] at hk
      cases hk
      have hmem : f ∈ findings.filter fun f => pathComponents f.path = k := by simp [hfilter]
      have hkey : pathComponents f.path = k := by simpa using (List.mem_filter.mp hmem).2
      rw [← hkey, hsame] at hfilter
      exact ⟨by simp, hfilter.symm⟩
  · rintro ⟨hne, rfl⟩
    obtain ⟨f, rest, hfilter⟩ := List.exists_cons_of_ne_nil hne
    have hmem : f ∈ findings.filter fun f => f.path = q := by simp [hfilter]
    have hpath : f.path = q := by simpa using (List.mem_filter.mp hmem).2
    refine ⟨pathComponents q, q, _, (hgrouped (pathComponents q)).trans ?_, rfl⟩
    rw [hsame, hfilter]
    simp [hpath]

/-- The findings of one file are on lines of their own. -/
theorem linesApart_of_mem {findings : List Finding} (hlines : ∀ f ∈ findings, f.lineNumber ≠ 0)
    {file : Path × List Finding} (h : file ∈ findingsByFile (envFindings [] findings)) :
    LinesApart file.2 := by
  obtain ⟨q, fs⟩ := file
  obtain ⟨-, rfl⟩ := mem_findingsByFile.mp h
  refine List.Pairwise.imp_of_mem ?_ ((envFindings_pairwise [] findings).filter _)
  intro f g hf hg hne heq
  obtain ⟨hf, hpath⟩ := List.mem_filter.mp hf
  obtain ⟨hg, hpath'⟩ := List.mem_filter.mp hg
  have hline := hlines f (mem_envFindings hf).1
  have hline' := hlines g (mem_envFindings hg).1
  refine hne (Prod.ext ?_ ?_)
  · exact (of_decide_eq_true hpath).trans (of_decide_eq_true hpath').symm
  · dsimp only
    omega

theorem path_mem_of_mem {findings : List Finding} {file : Path × List Finding}
    (h : file ∈ findingsByFile (envFindings [] findings)) : ∃ f ∈ findings, f.path = file.1 := by
  obtain ⟨q, fs⟩ := file
  obtain ⟨hne, rfl⟩ := mem_findingsByFile.mp h
  obtain ⟨f, hf⟩ := List.exists_mem_of_ne_nil _ hne
  obtain ⟨hf, hpath⟩ := List.mem_filter.mp hf
  exact ⟨f, (mem_envFindings hf).1, of_decide_eq_true hpath⟩

/-! ## The command -/

section

variable [JsonText]

/-- What `adopt_findings` stores: the bindings of the findings of dotenv files,
each new key once, or with `--force` every one, in a vault that opens. -/
structure AdoptTask (path : Path) (w : Disk) (unlock : Unlock) (findings : List Finding)
    (pre : Str) (force : Bool) (body : VaultBody) (items : List (Str × Str × UInt8)) : Prop where
  given : envFindings [] findings ≠ []
  opens : unlock.Opens path (w.fs path) body
  stored : items = taken force body.view
    (adoptItems pre w.fs (findingsByFile (envFindings [] findings)))

/-- Findings are on lines, which are counted from one, of files that are none
of the vault's. -/
structure FindingsApart (path : Path) (findings : List Finding) : Prop where
  lines : ∀ f ∈ findings, f.lineNumber ≠ 0
  files : ∀ f ∈ findings, f.path ∉ vaultFiles path

theorem adoptItems_congr {pre : Str} {fs fs' : Path → Option Contents}
    {files : List (Path × List Finding)} (h : ∀ file ∈ files, fs' file.1 = fs file.1) :
    adoptItems pre fs' files = adoptItems pre fs files := by
  refine List.flatMap_congr fun file hfile => ?_
  rw [fileText, h file hfile, ← fileText]

variable {m : Machine} {path : Path} {w : Disk} {unlock : Unlock} {findings : List Finding}
  {pre : Str} {force : Bool} (hm : m.Faultless)

include hm

omit [JsonText] in
theorem rewriteFiles_run (writes : List (Path × Str)) : ∃ w', (rewriteFiles writes).run m w =
    (.ok (), w') ∧ ∀ q, (∀ write ∈ writes, write.1 ≠ q) → w'.fs q = w.fs q := by
  induction writes generalizing w with
  | nil => exact ⟨w, rfl, fun _ _ => rfl⟩
  | cons write rest ih =>
    obtain ⟨v, hwrite, hv⟩ := write_run hm (w := w) write.1 (.text write.2)
    obtain ⟨w', hrest, hw'⟩ := ih (w := v)
    refine ⟨w', ?_, fun q hq => ?_⟩
    · unfold rewriteFiles
      rw [Fx.bind_run_ok hwrite, hrest]
    · rw [hw' q fun write hw => hq write (.tail _ hw), hv,
        Function.update_of_ne (hq write List.mem_cons_self).symm]

/-- Up to the loop: the vault is open and locked. -/
theorem adoptFindings_run {body : VaultBody} (hgiven : envFindings [] findings ≠ [])
    (hopens : unlock.Opens path (w.fs path) body) : ∃ store v, store.Current path v ∧
      store.body = body ∧ v.ticks = w.ticks ∧ (∀ q ∉ vaultFiles path, v.fs q = w.fs q) ∧
      (adoptFindings path unlock findings pre force).run m w = (do
        let (state, writes) ← adoptFiles pre force (findingsByFile (envFindings [] findings))
          ⟨store, [], false, [], [], [], []⟩
        let store ← state.store.save
        store.verifyPersisted state.storedPairs
        rewriteFiles writes
        pure ⟨state.adopted, state.skippedExisting, findings.filter fun f => !isDotenvFile f.path,
          state.errors⟩ : Prog AdoptOutcome).run m v := by
  obtain ⟨opened, w₁, hopen, hcurrent, hbody, hticks, hothers⟩ := openVault_found hm hopens
  obtain ⟨store, v, hrefresh, hframe, hcurrent', hbody', -⟩ := hcurrent.lockAndRefresh hm
  refine ⟨store, v, hcurrent', hbody'.trans hbody, hframe.ticks.trans hticks, fun q hq => ?_, ?_⟩
  · rw [hframe.fs q (by simp), hothers q hq]
  · unfold adoptFindings
    dsimp only
    rw [if_neg hgiven, Fx.bind_run_ok hopen, Fx.bind_run_ok hrefresh]

/-- From the loop on: the values are saved, and verified if they agree, and
then the files are rewritten. -/
theorem adoptFindings_commit {store : VaultStore} {state : AdoptState} {writes : List (Path × Str)}
    {v : Disk} (hcurrent : store.Current path w) (hapart : FindingsApart path findings)
    (hloop : (adoptFiles pre force (findingsByFile (envFindings [] findings))
      ⟨store, [], false, [], [], [], []⟩).run m w = (.ok (state, writes), v)) :
    ∃ msg u outcome, outcome.adopted = state.adopted ∧
      Saves path w store.body (taken force store.body.view
        (adoptItems pre w.fs (findingsByFile (envFindings [] findings)))) state.store.body u ∧
      state.adopted = (taken force store.body.view
        (adoptItems pre w.fs (findingsByFile (envFindings [] findings)))).map Prod.fst ∧ (do
        let (state, writes) ← adoptFiles pre force (findingsByFile (envFindings [] findings))
          ⟨store, [], false, [], [], [], []⟩
        let store ← state.store.save
        store.verifyPersisted state.storedPairs
        rewriteFiles writes
        pure ⟨state.adopted, state.skippedExisting, findings.filter fun f => !isDotenvFile f.path,
          state.errors⟩ : Prog AdoptOutcome).run m w =
      (if Agree (keyValues (taken force store.body.view
          (adoptItems pre w.fs (findingsByFile (envFindings [] findings))))) then .ok outcome
        else bail msg, u) := by
  obtain ⟨hadopting, hwrites, hfs⟩ := adoptFiles_eq_ok hm
    (fun file hf => linesApart_of_mem hapart.lines hf) hloop
  have hcurrent' : store.Current path v := hcurrent.of_fs (by rw [hfs])
  obtain ⟨saved, u, hsave, hentries, hothers, msg, u', hverify, hu'⟩ :=
    commit_run hm hcurrent' hadopting.storing
  have hpairs : state.storedPairs = keyValues (taken force store.body.view
      (adoptItems pre w.fs (findingsByFile (envFindings [] findings)))) := hadopting.pairs
  have hafter : Entries (u'.fs path) state.store.body := by
    rw [hu'.fs path (by simp)]
    exact hentries
  by_cases hagree : Agree (keyValues (taken force store.body.view
      (adoptItems pre w.fs (findingsByFile (envFindings [] findings)))))
  · rw [if_pos hagree] at hverify
    obtain ⟨z, hrewrite, hz⟩ := rewriteFiles_run hm (w := u') writes
    have hpath : z.fs path = u'.fs path := by
      refine hz path fun write hw heq => ?_
      obtain ⟨file, hf, hwrite⟩ := hwrites write hw
      obtain ⟨f, hf, hpath⟩ := path_mem_of_mem hf
      exact hapart.files f hf (.inl (hpath.trans (hwrite.symm.trans heq)))
    refine ⟨msg, z, ⟨state.adopted, state.skippedExisting,
      findings.filter fun f => !isDotenvFile f.path, state.errors⟩, rfl,
      ⟨hcurrent.entries, hpath ▸ hafter, hadopting.storing.view⟩, hadopting.adopted, ?_⟩
    rw [if_pos hagree, Fx.bind_run_ok hloop]
    dsimp only
    rw [Fx.bind_run_ok hsave, hpairs, Fx.bind_run_ok hverify, Fx.bind_run_ok hrewrite]
    rfl
  · rw [if_neg hagree] at hverify
    refine ⟨msg, u', ⟨state.adopted, [], [], []⟩, rfl,
      ⟨hcurrent.entries, hafter, hadopting.storing.view⟩, hadopting.adopted, ?_⟩
    rw [if_neg hagree, Fx.bind_run_ok hloop]
    dsimp only
    rw [Fx.bind_run_ok hsave, hpairs, Fx.bind_run_error hverify]
    rfl

theorem adoptFindings_ends (hapart : FindingsApart path findings) :
    Ends path w (AdoptTask path w unlock findings pre force)
      (fun outcome items => outcome.adopted = items.map Prod.fst)
      ((adoptFindings path unlock findings pre force).run m w).1
      ((adoptFindings path unlock findings pre force).run m w).2 := by
  by_cases hgiven : envFindings [] findings ≠ []
  swap
  · have hnone : (adoptFindings path unlock findings pre force).run m w =
        (.ok ⟨[], [], findings.filter fun f => !isDotenvFile f.path, []⟩, w) := by
      unfold adoptFindings
      dsimp only
      rw [if_pos (not_not.mp hgiven)]
      rfl
    rw [hnone]
    exact .idle (.of_fs rfl) rfl fun _ _ h => absurd h.given hgiven
  by_cases hopens : ∃ body, unlock.Opens path (w.fs path) body
  · obtain ⟨body, hopens⟩ := hopens
    obtain ⟨store, v, hcurrent, rfl, -, hothers, hrun⟩ :=
      @adoptFindings_run _ m path w unlock findings pre force hm _ hgiven hopens
    have hitems : adoptItems pre v.fs (findingsByFile (envFindings [] findings)) =
        adoptItems pre w.fs (findingsByFile (envFindings [] findings)) := by
      refine adoptItems_congr fun file hf => ?_
      obtain ⟨f, hf, hpath⟩ := path_mem_of_mem hf
      exact hothers _ (hpath ▸ hapart.files f hf)
    rw [hrun]
    rcases hloop : (adoptFiles pre force (findingsByFile (envFindings [] findings))
      ⟨store, [], false, [], [], [], []⟩).run m v with ⟨r, v'⟩
    cases r with
    | error e =>
      have hkept : ((adoptFiles pre force (findingsByFile (envFindings [] findings))
          ⟨store, [], false, [], [], [], []⟩).run m v).2.fs path = v.fs path :=
        hcurrent.loop_fs fun h => adoptFiles_keeps trivial_invariant h
      rw [hloop] at hkept
      rw [Fx.bind_run_error hloop]
      exact .failed (.of_entries hopens.entries (hkept ▸ hcurrent.entries))
    | ok result =>
      obtain ⟨state, writes⟩ := result
      obtain ⟨msg, u, outcome, houtcome, hsaves, hadopted, hcommit⟩ :=
        adoptFindings_commit hm hcurrent hapart hloop
      rw [hitems] at hsaves hadopted hcommit
      rw [hcommit]
      by_cases hagree : Agree (keyValues (taken force store.body.view
          (adoptItems pre w.fs (findingsByFile (envFindings [] findings)))))
      · rw [if_pos hagree]
        exact .stored ⟨hgiven, hopens, rfl⟩ (hsaves.from hopens.entries) hagree
          (houtcome.trans hadopted)
      · rw [if_neg hagree]
        exact .unverified ⟨hgiven, hopens, rfl⟩ (hsaves.from hopens.entries) hagree
  · obtain ⟨msg, v, hopen, hkept⟩ := openVault_refused hm (not_exists.mp hopens)
    have hfail :
        (adoptFindings path unlock findings pre force).run m w = (.error (.err msg), v) := by
      unfold adoptFindings
      dsimp only
      rw [if_neg hgiven, Fx.bind_run_error hopen]
    rw [hfail]
    exact .failed (.of_fs hkept)

end

/-- At the right times every finding is stored. -/
theorem adoptFindings_timed [JsonText] {path : Path} {w : Disk} {unlock : Unlock}
    {findings : List Finding} {pre : Str} {force : Bool} (hapart : FindingsApart path findings)
    {body : VaultBody} {items : List (Str × Str × UInt8)}
    (htask : AdoptTask path w unlock findings pre force body items) :
    ∃ m msg outcome body' u, Machine.Faultless m ∧ Saves path w body items body' u ∧
      (items = [] ∨ body' ≠ body) ∧ (adoptFindings path unlock findings pre force).run m w =
        (if Agree (keyValues items) then .ok outcome else bail msg, u) := by
  obtain ⟨hgiven, hopens, rfl⟩ := htask
  obtain ⟨times, body', hloop, hend⟩ := @adoptFiles_timed _ pre force body body w.fs
    (findingsByFile (envFindings [] findings)) fun file hf => linesApart_of_mem hapart.lines hf
  set m : Machine := .at w.ticks times with hm
  obtain ⟨store, v, hcurrent, rfl, hticks, hothers, hrun⟩ :=
    @adoptFindings_run _ m path w unlock findings pre force (Machine.at_faultless _ _) _
      hgiven hopens
  -- The findings are read once the vault is open, which leaves their files alone.
  have hfiles : ∀ file ∈ findingsByFile (envFindings [] findings), v.fs file.1 = w.fs file.1 := by
    intro file hf
    obtain ⟨f, hf, hpath⟩ := path_mem_of_mem hf
    exact hothers _ (hpath ▸ hapart.files f hf)
  obtain ⟨state, writes, v', hadopt, rfl⟩ := hloop m v ⟨store, [], false, [], [], [], []⟩
    (Machine.at_faultless _ _) hfiles (fun i t ht => hticks ▸ Machine.at_clock ht) rfl
  obtain ⟨msg, u, outcome, -, hsaves, -, hcommit⟩ :=
    adoptFindings_commit (Machine.at_faultless _ _) hcurrent hapart hadopt
  rw [adoptItems_congr hfiles] at hsaves hcommit
  refine ⟨m, msg, outcome, state.store.body, u, Machine.at_faultless _ _,
    hsaves.from hopens.entries, hend.imp And.left Retimed.ne, ?_⟩
  rw [hrun, hcommit]

theorem adoptFindings_reaches [JsonText] {path : Path} {w : Disk} {unlock : Unlock}
    {findings : List Finding} {pre : Str} {force : Bool} (hapart : FindingsApart path findings)
    {body : VaultBody} {items : List (Str × Str × UInt8)}
    (htask : AdoptTask path w unlock findings pre force body items) (hitems : items ≠ []) :
    ∃ m, Machine.Faultless m ∧
      Commits path w body items ((adoptFindings path unlock findings pre force).run m w).2 := by
  obtain ⟨m, msg, outcome, body', u, hm, hsaves, hnew, hrun⟩ := adoptFindings_timed hapart htask
  refine ⟨m, hm, body', ?_, hnew.resolve_left hitems⟩
  rw [hrun]
  exact hsaves

end HearthVault
