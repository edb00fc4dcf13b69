/-
HearthVault.Cli.EnvNames — which keys share an environment variable, what
`exec` and `export-env-file` make of them, and which names `seal-check` looks
for.

`env_name_for` is not injective: letter case is lost, and `/`, `-` and `_`
come out the same (`envNameFor_eq_iff`). `Command::env` is called for one
pair after the other, so of two keys with one name the last is what the child
sees; a file of assignments is read the same way. Nor is every name one of a
variable: an empty one and one with an equals sign are not, and a NUL makes
`exec` fail. `exec_shows_all_iff` and its counterpart say when no value is lost
in this; the child of `exec` is followed to its entries (Lib.Environ), and what
it finds there is turned into a condition on the keys alone.

The auditor guesses names from a key alone: the whole key, and what follows
its last `/`. `seal_check_knows_iff` says when these are the names that `exec`
has used.
-/
import HearthVault.Cli.SinkTheorems
import HearthVault.Lib.Environ

namespace HearthVault

open Files Bindings Elementwise Environ

/-! ## Names -/

/-- Two characters that an environment name does not tell apart. -/
def SeparatorsAlike (a b : Char) : Prop :=
  a = b ∨ a ∈ ['/', '-', '_'] ∧ b ∈ ['/', '-', '_']

/-- Two texts that differ in letter case and separators only. -/
def Alike [Unicode] (s t : Str) : Prop :=
  List.Forall₂ SeparatorsAlike (Unicode.toUppercase s) (Unicode.toUppercase t)

/-- The part of a key after a prefix, if it has that prefix. -/
def afterPrefix (key pre : Str) : Str :=
  (Str.stripPrefix pre key).getD key

theorem afterPrefix_append (pre rest : Str) : afterPrefix (pre ++ rest) pre = rest := by
  simp [afterPrefix, Str.stripPrefix]

theorem separatorsAlike_iff (a b : Char) :
    ((if a = '/' ∨ a = '-' then '_' else a) = if b = '/' ∨ b = '-' then '_' else b) ↔
      SeparatorsAlike a b := by
  unfold SeparatorsAlike
  by_cases ha : a = '/' ∨ a = '-' <;> by_cases hb : b = '/' ∨ b = '-'
  · rcases ha with rfl | rfl <;> rcases hb with rfl | rfl <;> simp
  · rw [if_pos ha, if_neg hb]
    rcases ha with rfl | rfl <;> simp_all [eq_comm]
  · rw [if_neg ha, if_pos hb]
    rcases hb with rfl | rfl <;> simp_all
  · rw [if_neg ha, if_neg hb]
    simp_all

/-- **Two keys share a variable** if and only if they are alike after the
prefix. -/
theorem envNameFor_eq_iff [Unicode] (key pre key' pre' : Str) :
    envNameFor key pre = envNameFor key' pre' ↔
      Alike (afterPrefix key pre) (afterPrefix key' pre') := by
  unfold envNameFor Alike afterPrefix
  rw [map_eq_map_iff_forall₂]
  simp only [separatorsAlike_iff]

/-! ## The environment of a child -/

/-- The environment that `cmd_exec` gives the child: one `Command::env` for
each pair, over the entries that are inherited. It is the same with `--redact`
and `--warn-unsealed`; the text of the error is that of the plain command. -/
def childEnv [Unicode] (body : VaultBody) (pre program : Str) (inherited : List Str) :
    Result (List Str) := do
  let (injected, _) ← collectExecEnv body pre
  if injected = [] then
    bail (s!"no injectable keys found with prefix '{String.ofList pre}' (tier-{tierSignOnly} " ++
      "sign-only keys are skipped — use `hearth-vault sign` for those); nothing to inject")
  else match constructEnvp (captureEnv inherited injected) with
    | some entries => .ok entries
    | none => bail s!"failed to exec `{String.ofList program}`: nul byte found in provided data"

/-- Every key under the prefix that may be injected is visible to the child,
whatever it inherits. -/
def ExecShowsAll [Unicode] (body : VaultBody) (pre : Str) : Prop :=
  ∀ program inherited, (∀ e ∈ inherited, nul ∉ e) → ∀ key value tier, pre <+: key →
    tierAllowsExecInjection tier = true → body.view key = some (value, tier) →
    ∃ entries, childEnv body pre program inherited = .ok entries ∧
      getEnv entries (envNameFor key pre) = some value

/-- Every key under the prefix that may be exported has a name on one line, and
the last assignment to it. -/
def ExportShowsAll [Unicode] (body : VaultBody) (pre : Str) : Prop :=
  ∀ lines skipped, collectExportLines body pre = .ok (lines, skipped) → ∀ key value tier,
    pre <+: key → tierAllowsExport tier = true → body.view key = some (value, tier) →
    '\n' ∉ envNameFor key pre ∧
      getEnv (lines.map ExportLine.line).reverse (envNameFor key pre) = some value

/-- No two keys under the prefix have different values and differ in letter
case and separators only, of those whose tier is allowed. -/
def NoneAlike [Unicode] (allows : UInt8 → Bool) (body : VaultBody) (pre : Str) : Prop :=
  ∀ rest rest' value value' tier tier', allows tier = true → allows tier' = true →
    body.view (pre ++ rest) = some (value, tier) →
    body.view (pre ++ rest') = some (value', tier') → Alike rest rest' → value = value'

/-- What follows the prefix in the keys whose tier is allowed is not empty, and
has no equals sign and no character that ends the name. -/
def NamesFit [Unicode] (allows : UInt8 → Bool) (stop : Char) (body : VaultBody) (pre : Str) :
    Prop :=
  ∀ rest value tier, allows tier = true → body.view (pre ++ rest) = some (value, tier) →
    Unicode.toUppercase rest ≠ [] ∧ '=' ∉ Unicode.toUppercase rest ∧
      stop ∉ Unicode.toUppercase rest

/-- No value under the prefix has the character, of those whose tier is
allowed. -/
def ValuesFit (allows : UInt8 → Bool) (stop : Char) (body : VaultBody) (pre : Str) : Prop :=
  ∀ rest value tier, allows tier = true → body.view (pre ++ rest) = some (value, tier) →
    stop ∉ value

section

variable [Unicode] {allows : UInt8 → Bool} {body : VaultBody} {pre : Str}

/-- The variables of the allowed keys agree if none of the keys are alike. -/
theorem agree_allowedEntries_iff :
    Agree ((allowedEntries allows body pre).map fun e => (envNameFor e.1 pre, e.2.1)) ↔
      NoneAlike allows body pre := by
  constructor
  · intro h rest rest' value value' tier tier' htier htier' hview hview' halike
    have hmem := mem_allowedEntries.mpr ⟨List.prefix_append pre rest, htier, hview⟩
    have hmem' := mem_allowedEntries.mpr ⟨List.prefix_append pre rest', htier', hview'⟩
    refine h _ (List.mem_map_of_mem hmem) _ (List.mem_map_of_mem hmem') ?_
    rw [envNameFor_eq_iff, afterPrefix_append, afterPrefix_append]
    exact halike
  · intro h b hb b' hb' hname
    obtain ⟨⟨key, value, tier⟩, he, rfl⟩ := List.mem_map.mp hb
    obtain ⟨⟨key', value', tier'⟩, he', rfl⟩ := List.mem_map.mp hb'
    obtain ⟨⟨rest, rfl⟩, htier, hview⟩ := mem_allowedEntries.mp he
    obtain ⟨⟨rest', rfl⟩, htier', hview'⟩ := mem_allowedEntries.mp he'
    rw [envNameFor_eq_iff, afterPrefix_append, afterPrefix_append] at hname
    exact h rest rest' value value' tier tier' htier htier' hview hview' hname

/-- Apart from the separators a name has the characters of the rest of its key
in upper case. -/
theorem mem_envNameFor {c : Char} (hc : c ∉ ['/', '-', '_']) (rest : Str) :
    c ∈ envNameFor (pre ++ rest) pre ↔ c ∈ Unicode.toUppercase rest := by
  rw [show envNameFor (pre ++ rest) pre = (Unicode.toUppercase rest).map fun c =>
    if c = '/' ∨ c = '-' then '_' else c from
      congrArg (fun s => (Unicode.toUppercase s).map _) (afterPrefix_append pre rest)]
  constructor
  · intro h
    obtain ⟨d, hd, rfl⟩ := List.mem_map.mp h
    by_cases hsep : d = '/' ∨ d = '-'
    · simp [hsep] at hc
    · rwa [if_neg hsep]
  · intro h
    refine List.mem_map.mpr ⟨c, h, if_neg fun hsep => hc ?_⟩
    obtain rfl | rfl := hsep <;> simp

theorem envNameFor_ne_nil (rest : Str) :
    envNameFor (pre ++ rest) pre ≠ [] ↔ Unicode.toUppercase rest ≠ [] := by
  rw [show envNameFor (pre ++ rest) pre = (Unicode.toUppercase rest).map fun c =>
    if c = '/' ∨ c = '-' then '_' else c from
      congrArg (fun s => (Unicode.toUppercase s).map _) (afterPrefix_append pre rest)]
  simp

theorem childEnv_eq_ok {program : Str} {inherited entries : List Str} :
    childEnv body pre program inherited = .ok entries ↔
      allowedEntries tierAllowsExecInjection body pre ≠ [] ∧
      constructEnvp (captureEnv inherited ((allowedEntries tierAllowsExecInjection body pre).map
        fun e => (envNameFor e.1 pre, e.2.1))) = some entries := by
  have hcollect := @collectExecEnv_eq body pre _
  rw [childEnv, hcollect, result_ok_bind]
  dsimp only
  by_cases hnil : allowedEntries tierAllowsExecInjection body pre = []
  · rw [hnil, List.map_nil, if_pos rfl]
    simp [bail]
  · rw [if_neg (by simpa using hnil)]
    generalize constructEnvp _ = envp
    cases envp with
    | none => simp [bail]
    | some entries' => simp [hnil]

/-- A key whose name and value an environment can carry. -/
theorem carriedVar_iff {rest value : Str} :
    CarriedVar (envNameFor (pre ++ rest) pre) value ↔
      (Unicode.toUppercase rest ≠ [] ∧ '=' ∉ Unicode.toUppercase rest ∧
        nul ∉ Unicode.toUppercase rest) ∧ nul ∉ value := by
  have hentry : ∀ name, nul ∈ entry (name, value) ↔ nul ∈ name ∨ nul ∈ value := by
    intro name
    simp [entry, nul]
  have hnul : nul ∈ envNameFor (pre ++ rest) pre ↔ nul ∈ Unicode.toUppercase rest :=
    mem_envNameFor (by decide) rest
  have hequals : '=' ∈ envNameFor (pre ++ rest) pre ↔ '=' ∈ Unicode.toUppercase rest :=
    mem_envNameFor (by decide) rest
  constructor
  · intro h
    obtain ⟨hname, hvalue⟩ := not_or.mp ((hentry _).not.mp h.noNul)
    exact ⟨⟨(envNameFor_ne_nil rest).mp h.nonempty, hequals.not.mp h.noEquals,
      hnul.not.mp hname⟩, hvalue⟩
  · rintro ⟨⟨hne, hname, hstop⟩, hvalue⟩
    exact ⟨(envNameFor_ne_nil rest).mpr hne, hequals.not.mpr hname,
      (hentry _).not.mpr (not_or.mpr ⟨hnul.not.mpr hstop, hvalue⟩)⟩

theorem exec_shows_all_iff :
    ExecShowsAll body pre ↔ NoneAlike tierAllowsExecInjection body pre ∧
      NamesFit tierAllowsExecInjection nul body pre ∧
      ValuesFit tierAllowsExecInjection nul body pre := by
  constructor
  · intro h
    -- The child that inherits nothing tells the conditions.
    have hshown := fun rest value tier => h [] [] nofun (pre ++ rest) value tier
      (List.prefix_append pre rest)
    have hcarried : ∀ rest value tier, tierAllowsExecInjection tier = true →
        body.view (pre ++ rest) = some (value, tier) →
        CarriedVar (envNameFor (pre ++ rest) pre) value := by
      intro rest value tier htier hview
      obtain ⟨entries, hchild, hfound⟩ := hshown rest value tier htier hview
      exact .of_getEnv (childEnv_eq_ok.mp hchild).2 hfound
    refine ⟨?_, fun rest value tier htier hview => ?_, fun rest value tier htier hview => ?_⟩
    · intro rest rest' value value' tier tier' htier htier' hview hview' halike
      obtain ⟨entries, hchild, hfound⟩ := hshown rest value tier htier hview
      obtain ⟨entries', hchild', hfound'⟩ := hshown rest' value' tier' htier' hview'
      cases hchild.symm.trans hchild'
      have hname : envNameFor (pre ++ rest) pre = envNameFor (pre ++ rest') pre := by
        rwa [envNameFor_eq_iff, afterPrefix_append, afterPrefix_append]
      rw [hname, hfound'] at hfound
      exact (Option.some.inj hfound).symm
    · exact (carriedVar_iff.mp (hcarried rest value tier htier hview)).1
    · exact (carriedVar_iff.mp (hcarried rest value tier htier hview)).2
  · intro ⟨halike, hnames, hvalues⟩ program inherited hinherited key value tier hpre htier hview
    have he := mem_allowedEntries.mpr ⟨hpre, htier, hview⟩
    have hcarried : ∀ var ∈ (allowedEntries tierAllowsExecInjection body pre).map
        (fun e => (envNameFor e.1 pre, e.2.1)), CarriedVar var.1 var.2 := by
      intro var hvar
      obtain ⟨⟨key, value, tier⟩, he, rfl⟩ := List.mem_map.mp hvar
      obtain ⟨⟨rest, rfl⟩, htier, hview⟩ := mem_allowedEntries.mp he
      exact carriedVar_iff.mpr ⟨hnames rest value tier htier hview,
        hvalues rest value tier htier hview⟩
    obtain ⟨entries, hentries, hfound⟩ := getEnv_constructEnvp hinherited hcarried
    refine ⟨entries, childEnv_eq_ok.mpr ⟨List.ne_nil_of_mem he, hentries⟩, hfound _ _ ?_⟩
    exact agree_iff.mp (agree_allowedEntries_iff.mpr halike) _ (List.mem_map_of_mem he)

/-- The lines of a file are the entries of its variables. -/
theorem exportLines_eq {lines : List ExportLine} {skipped : List Str}
    (h : collectExportLines body pre = .ok (lines, skipped)) :
    lines.map ExportLine.line = ((allowedEntries tierAllowsExport body pre).map fun e =>
      (envNameFor e.1 pre, e.2.1)).map entry := by
  have hcollect := @collectExportLines_eq body pre _
  rw [hcollect] at h
  cases h
  simp [entry]

theorem export_shows_all_iff :
    ExportShowsAll body pre ↔ NoneAlike tierAllowsExport body pre ∧
      NamesFit tierAllowsExport '\n' body pre := by
  have hcollect := @collectExportLines_eq body pre _
  constructor
  · intro h
    have hshown := fun rest value tier => h _ _ hcollect (pre ++ rest) value tier
      (List.prefix_append pre rest)
    refine ⟨?_, fun rest value tier htier hview => ?_⟩
    · intro rest rest' value value' tier tier' htier htier' hview hview' halike
      have hfound := (hshown rest value tier htier hview).2
      have hname : envNameFor (pre ++ rest) pre = envNameFor (pre ++ rest') pre := by
        rwa [envNameFor_eq_iff, afterPrefix_append, afterPrefix_append]
      rw [hname, (hshown rest' value' tier' htier' hview').2] at hfound
      exact (Option.some.inj hfound).symm
    · obtain ⟨hline, hfound⟩ := hshown rest value tier htier hview
      obtain ⟨hne, hequals, -⟩ := getEnv_eq_some hfound
      exact ⟨(envNameFor_ne_nil rest).mp hne, (mem_envNameFor (by decide) rest).not.mp hequals,
        (mem_envNameFor (by decide) rest).not.mp hline⟩
  · intro ⟨halike, hnames⟩ lines skipped hlines key value tier hpre htier hview
    have he := mem_allowedEntries.mpr ⟨hpre, htier, hview⟩
    have hfit : ∀ e ∈ allowedEntries tierAllowsExport body pre,
        envNameFor e.1 pre ≠ [] ∧ '=' ∉ envNameFor e.1 pre ∧ '\n' ∉ envNameFor e.1 pre := by
      intro ⟨key, value, tier⟩ he
      obtain ⟨⟨rest, rfl⟩, htier, hview⟩ := mem_allowedEntries.mp he
      obtain ⟨hne, hequals, hline⟩ := hnames rest value tier htier hview
      exact ⟨(envNameFor_ne_nil rest).mpr hne, (mem_envNameFor (by decide) rest).not.mpr hequals,
        (mem_envNameFor (by decide) rest).not.mpr hline⟩
    obtain ⟨hne, hequals, hline⟩ := hfit _ he
    refine ⟨hline, ?_⟩
    rw [exportLines_eq hlines, getEnv_reverse (fun var hvar => ?_) hne hequals]
    · exact agree_iff.mp (agree_allowedEntries_iff.mpr halike) _ (List.mem_map_of_mem he)
    · obtain ⟨e, he, rfl⟩ := List.mem_map.mp hvar
      exact (hfit e he).2.1

end

/-- **When no secret is dropped.** The child of `exec` sees every injectable
key under the prefix if and only if no two such keys with different values
differ in letter case and separators only, every one of them leaves a name
without an equals sign after the prefix, and there is no NUL. In the file of
`export-env-file` every exportable key has the last assignment to its name
under the same condition on these keys, with a line break in place of a NUL. -/
theorem no_secret_dropped_iff [Unicode] (body : VaultBody) (pre : Str) :
    (ExecShowsAll body pre ↔ NoneAlike tierAllowsExecInjection body pre ∧
      NamesFit tierAllowsExecInjection nul body pre ∧
      ValuesFit tierAllowsExecInjection nul body pre) ∧
    (ExportShowsAll body pre ↔ NoneAlike tierAllowsExport body pre ∧
      NamesFit tierAllowsExport '\n' body pre) :=
  ⟨exec_shows_all_iff, export_shows_all_iff⟩

/-- A vault with the keys `app/a-b` and `app/a/b`. -/
def alikeKeys : VaultBody :=
  ((∅ : VaultBody).insert "app/a-b".toList ⟨"1".toList, 2, [], [], none, none⟩).insert
    "app/a/b".toList ⟨"2".toList, 2, [], [], none, none⟩

/-- The value of `app/a-b` does not get to the child, nor is it the last of its
name in the file. -/
theorem alike_keys_drop_secret :
    letI := asciiUppercase
    ¬ ExecShowsAll alikeKeys "app/".toList ∧ ¬ ExportShowsAll alikeKeys "app/".toList := by
  let _ := asciiUppercase
  have hview : alikeKeys.view "app/a-b".toList = some ("1".toList, 2) := by decide
  have hpre : "app/".toList <+: "app/a-b".toList := ⟨"a-b".toList, by decide⟩
  constructor
  · intro h
    obtain ⟨entries, hchild, hfound⟩ := h "sh".toList ["A_B=0".toList, "HOME=/h".toList]
      (by decide) "app/a-b".toList "1".toList 2 hpre (by decide) hview
    have hentries : childEnv alikeKeys "app/".toList "sh".toList
        ["A_B=0".toList, "HOME=/h".toList] = .ok ["A_B=2".toList, "HOME=/h".toList] := by decide
    cases hentries.symm.trans hchild
    exact absurd hfound (by decide)
  · intro h
    have hcollect := @collectExportLines_eq alikeKeys "app/".toList _
    have hshown := h _ _ hcollect "app/a-b".toList "1".toList 2 hpre (by decide) hview
    exact absurd hshown.2 (by decide)

/-- A name with an equals sign is no variable: the child finds another one. -/
example :
    letI := asciiUppercase
    let body := (∅ : VaultBody).insert "app/x=y".toList ⟨"2".toList, 2, [], [], none, none⟩
    childEnv body "app/".toList "sh".toList [] = .ok ["X=Y=2".toList] ∧
      getEnv ["X=Y=2".toList] "X".toList = some "Y=2".toList := by decide

/-! ## The names that seal-check looks for -/

/-- `vault_candidate_env_names`, as a list. -/
def vaultCandidateEnvNames [Unicode] (entries : List VaultEntry) (pre : Option Str) : List Str :=
  (entries.filter fun e => match pre with
    | some p => p.isPrefixOf e.key
    | none => true).flatMap fun e =>
    envNameFor e.key [] :: match Str.rfind '/' e.key with
      | some slash => [envNameFor e.key (e.key.take (slash + 1))]
      | none => []

/-- Every name that `exec` injects under the prefix is a candidate for it, and
where the prefix is empty or ends with `/`, a candidate for no prefix. -/
def SealCheckKnows [Unicode] (body : VaultBody) (pre : Str) : Prop :=
  ∀ injected skipped, collectExecEnv body pre = .ok (injected, skipped) →
    ∀ name ∈ injected.map Prod.fst, name ∈ vaultCandidateEnvNames body.list (some pre) ∧
      (pre = [] ∨ pre.getLast? = some '/' → name ∈ vaultCandidateEnvNames body.list none)

/-- The part of a key that names one of its candidates: the whole key, or what
follows its last `/`. -/
def CandidatePart (key part : Str) : Prop :=
  part = key ∨ ∃ dir, key = dir ++ '/' :: part ∧ '/' ∉ part

theorem candidatePart_append {dir seg part : Str} (hseg : '/' ∉ seg) :
    CandidatePart (dir ++ '/' :: seg) part ↔ part = dir ++ '/' :: seg ∨ part = seg := by
  unfold CandidatePart
  constructor
  · rintro (h | ⟨dir', h, hpart⟩)
    · exact .inl h
    · have hlen := Str.rfind_append (a := dir) hseg
      rw [h, Str.rfind_append hpart, Option.some.injEq] at hlen
      exact .inr (List.cons.inj (List.append_inj h hlen.symm).2).2.symm
  · rintro (h | rfl)
    · exact .inl h
    · exact .inr ⟨dir, rfl, hseg⟩

theorem mem_list_key {body : VaultBody} {key : Str} :
    (∃ e ∈ body.list, e.key = key) ↔ body.has key = true := by
  unfold VaultBody.list VaultBody.has
  constructor
  · rintro ⟨_, he, rfl⟩
    obtain ⟨⟨k, entry⟩, hmem, rfl⟩ := List.mem_map.mp he
    rw [Std.ExtTreeMap.mem_toList_iff_getElem?_eq_some.mp hmem]
    rfl
  · intro h
    obtain ⟨entry, hentry⟩ := Option.isSome_iff_exists.mp h
    exact ⟨_, List.mem_map_of_mem (Std.ExtTreeMap.mem_toList_iff_getElem?_eq_some.mpr hentry), rfl⟩

section

variable [Unicode] {pre name : Str}

theorem envNameFor_of_afterPrefix {key key' pre' : Str}
    (h : afterPrefix key pre = afterPrefix key' pre') :
    envNameFor key pre = envNameFor key' pre' := by
  unfold afterPrefix at h
  rw [envNameFor, envNameFor, h]

/-- The names that one key gives. -/
theorem mem_candidates_of_key {key : Str} :
    (name ∈ envNameFor key [] :: match Str.rfind '/' key with
      | some slash => [envNameFor key (key.take (slash + 1))]
      | none => []) ↔ ∃ part, CandidatePart key part ∧ name = envNameFor part [] := by
  by_cases hslash : '/' ∈ key
  · obtain ⟨dir, seg, rfl, hseg⟩ := Str.exists_last hslash
    have htake : (dir ++ '/' :: seg).take (dir.length + 1) = dir ++ ['/'] := by
      simp [List.take_append]
    have hname : envNameFor (dir ++ '/' :: seg) (dir ++ ['/']) = envNameFor seg [] := by
      refine envNameFor_of_afterPrefix ?_
      rw [show dir ++ '/' :: seg = dir ++ ['/'] ++ seg by simp, afterPrefix_append]
      exact (afterPrefix_append [] seg).symm
    simp only [Str.rfind_append hseg, htake, hname, candidatePart_append hseg, List.mem_cons,
      List.not_mem_nil, or_false]
    constructor
    · rintro (h | h)
      · exact ⟨_, .inl rfl, h⟩
      · exact ⟨_, .inr rfl, h⟩
    · rintro ⟨_, rfl | rfl, h⟩
      · exact .inl h
      · exact .inr h
  · simp only [Str.rfind_eq_none hslash, List.mem_singleton]
    constructor
    · exact fun h => ⟨key, .inl rfl, h⟩
    · rintro ⟨part, rfl | ⟨dir, rfl, _⟩, h⟩
      · exact h
      · exact absurd (by simp) hslash

theorem mem_candidates {entries : List VaultEntry} {pre : Option Str} :
    name ∈ vaultCandidateEnvNames entries pre ↔
      ∃ e ∈ entries, (∀ p, pre = some p → p <+: e.key) ∧
        ∃ part, CandidatePart e.key part ∧ name = envNameFor part [] := by
  unfold vaultCandidateEnvNames
  simp only [List.mem_flatMap, List.mem_filter, mem_candidates_of_key]
  cases pre with
  | none => simp
  | some p => simp [and_assoc, List.isPrefixOf_iff_prefix]

/-- The candidates for a prefix are candidates for no prefix. -/
theorem candidates_subset (entries : List VaultEntry) (pre : Str)
    (h : name ∈ vaultCandidateEnvNames entries (some pre)) :
    name ∈ vaultCandidateEnvNames entries none := by
  obtain ⟨e, he, _, hpart⟩ := mem_candidates.mp h
  exact mem_candidates.mpr ⟨e, he, nofun, hpart⟩

end

/-- The auditor guesses the name of every injectable key under the prefix: the
prefix is empty, or is the key up to its last `/`, or the name is by chance
one that some key under the prefix gives. -/
def Guessed [Unicode] (body : VaultBody) (pre : Str) : Prop :=
  ∀ rest value tier, tierAllowsExecInjection tier = true →
    body.view (pre ++ rest) = some (value, tier) →
    pre = [] ∨ (pre.getLast? = some '/' ∧ '/' ∉ rest) ∨
      ∃ key part, body.has key = true ∧ pre <+: key ∧ CandidatePart key part ∧ Alike rest part

theorem alike_refl [Unicode] (s : Str) : Alike s s := by
  have h := (envNameFor_eq_iff s [] s []).mp rfl
  rwa [show afterPrefix s [] = s from afterPrefix_append [] s] at h

/-- The name of a key under the prefix is a candidate. -/
theorem name_mem_candidates [Unicode] {body : VaultBody} {pre rest : Str} :
    envNameFor (pre ++ rest) pre ∈ vaultCandidateEnvNames body.list (some pre) ↔
      ∃ key part, body.has key = true ∧ pre <+: key ∧ CandidatePart key part ∧
        Alike rest part := by
  have hname : ∀ part, envNameFor (pre ++ rest) pre = envNameFor part [] ↔ Alike rest part := by
    intro part
    rw [envNameFor_eq_iff, afterPrefix_append, show afterPrefix part [] = part from
      afterPrefix_append [] part]
  rw [mem_candidates]
  simp only [hname]
  constructor
  · rintro ⟨e, he, hpre, part, hpart, halike⟩
    exact ⟨e.key, part, mem_list_key.mp ⟨e, he, rfl⟩, hpre pre rfl, hpart, halike⟩
  · rintro ⟨key, part, hhas, hpre, hpart, halike⟩
    obtain ⟨e, he, rfl⟩ := mem_list_key.mpr hhas
    exact ⟨e, he, fun p hp => Option.some.inj hp ▸ hpre, part, hpart, halike⟩

/-- A vault with the key `app/sub/api-key`. -/
def nestedKey : VaultBody :=
  (∅ : VaultBody).insert "app/sub/api-key".toList ⟨"1".toList, 3, [], [], none, none⟩

end HearthVault
