/-
HearthVault.Cli.SinkTheorems — what leaves an open vault, as a function of
its entries under a prefix.

`export-env-file` and `exec` list the keys, filter them and look every value
up again; the values are those of the entries, in key order
(`collectExportLines_eq`, `collectExecEnv_eq`). A key that is the prefix and
an environment name comes out under that name (`envNameFor_append`).
-/
import HearthVault.Cli.Sinks
import HearthVault.Cli.Storing
import HearthVault.Lib.Lists

namespace HearthVault

open Files Elementwise

/-! ## Listing -/

section

variable {allows : UInt8 → Bool} {body : VaultBody} {pre : Str}

/-- The entries under a prefix that pass the tier test. -/
def allowedEntries (allows : UInt8 → Bool) (body : VaultBody) (pre : Str) :
    List (Str × Str × UInt8) :=
  (body.entriesWithPrefix pre).filter fun e => allows e.2.2

/-- The values that are looked up again are those that were listed. -/
theorem mapM_listedValue {α : Type} (f : Str → Str → α) (occasion : String) :
    ((partitionKeys allows body pre).1.mapM fun e => do
        let value ← listedValue body e.key occasion
        .ok (f e.key value)) =
      (.ok ((allowedEntries allows body pre).map fun e => f e.1 e.2.1) : Result (List α)) := by
  have hlist : (partitionKeys allows body pre).1 =
      ((body.toList.filter fun p => pre.isPrefixOf p.1).filter
        fun p => allows p.2.tier).map fun p =>
        ⟨p.1, p.2.tier, p.2.createdAt, p.2.updatedAt, p.2.rotateDays, p.2.expiresAt⟩ := by
    simp only [partitionKeys, VaultBody.list, List.filter_map, Function.comp_def]
  have hentries : (allowedEntries allows body pre).map (fun e => f e.1 e.2.1) =
      ((body.toList.filter fun p => pre.isPrefixOf p.1).filter
        fun p => allows p.2.tier).map fun p =>
        f p.1 p.2.value := by
    simp only [allowedEntries, VaultBody.entriesWithPrefix, List.filter_map, List.map_map,
      Function.comp_def]
  rw [hlist, hentries, List.mapM_map]
  refine mapM_eq_ok fun p hp => ?_
  have hget : body[p.1]? = some p.2 := Std.ExtTreeMap.mem_toList_iff_getElem?_eq_some.mp
    (List.mem_filter.mp (List.mem_filter.mp hp).1).1
  simp [listedValue, VaultBody.value?, hget]

theorem mem_allowedEntries {key value : Str} {tier : UInt8} :
    (key, value, tier) ∈ allowedEntries allows body pre ↔
      pre <+: key ∧ allows tier = true ∧ body.view key = some (value, tier) := by
  constructor
  · intro h
    obtain ⟨hmem, hallows⟩ := List.mem_filter.mp h
    obtain ⟨⟨k, e⟩, hlisted, heq⟩ := List.mem_map.mp hmem
    cases heq
    have hpre := (List.mem_filter.mp hlisted).2
    exact ⟨List.isPrefixOf_iff_prefix.mp hpre, hallows, mem_entriesWithPrefix hmem⟩
  · rintro ⟨hpre, hallows, hview⟩
    obtain ⟨e, hget, heq⟩ := Option.map_eq_some_iff.mp hview
    cases heq
    have hlisted : (key, e) ∈ body.toList.filter fun p => pre.isPrefixOf p.1 :=
      List.mem_filter.mpr ⟨Std.ExtTreeMap.mem_toList_iff_getElem?_eq_some.mpr hget,
        List.isPrefixOf_iff_prefix.mpr hpre⟩
    exact List.mem_filter.mpr ⟨List.mem_map.mpr ⟨_, hlisted, rfl⟩, hallows⟩

/-- The keys under a prefix come in order, each once. -/
theorem nodup_allowedEntries : ((allowedEntries allows body pre).map Prod.fst).Nodup := by
  have hkeys : (body.toList.map Prod.fst).Nodup := by
    rw [Std.ExtTreeMap.map_fst_toList_eq_keys]
    exact Std.ExtTreeMap.nodup_keys
  have hfst : (body.entriesWithPrefix pre).map Prod.fst =
      (body.toList.filter fun p => pre.isPrefixOf p.1).map Prod.fst := by
    simp [VaultBody.entriesWithPrefix, Function.comp_def]
  have hsub : ((allowedEntries allows body pre).map Prod.fst).Sublist
      ((body.entriesWithPrefix pre).map Prod.fst) := List.filter_sublist.map _
  rw [hfst] at hsub
  exact hkeys.sublist (hsub.trans (List.filter_sublist.map _))

theorem collectExportLines_eq [Unicode] : collectExportLines body pre =
    .ok ((allowedEntries tierAllowsExport body pre).map fun e =>
      ⟨envNameFor e.1 pre, e.1, envNameFor e.1 pre ++ '=' :: e.2.1⟩,
        (partitionKeys tierAllowsExport body pre).2) := by
  have hlines := @mapM_listedValue tierAllowsExport body pre _
    (fun key value => (⟨envNameFor key pre, key, envNameFor key pre ++ '=' :: value⟩ : ExportLine))
    "export"
  exact congrArg
    (· >>= fun lines => .ok (lines, (partitionKeys tierAllowsExport body pre).2)) hlines

theorem collectExecEnv_eq [Unicode] : collectExecEnv body pre =
    .ok ((allowedEntries tierAllowsExecInjection body pre).map fun e => (envNameFor e.1 pre, e.2.1),
      (partitionKeys tierAllowsExecInjection body pre).2) := by
  have henv := @mapM_listedValue tierAllowsExecInjection body pre _
    (fun key value => (envNameFor key pre, value)) "exec"
  exact congrArg
    (· >>= fun injected => .ok (injected, (partitionKeys tierAllowsExecInjection body pre).2)) henv

end

/-! ## Environment names -/

/-- A character of a conventional environment name. -/
def isNameChar (c : Char) : Bool :=
  c.isUpper || c.isDigit || c == '_'

/-- Uppercasing changes no such name. -/
def FixesNames [Unicode] : Prop :=
  ∀ s : Str, (∀ c ∈ s, isNameChar c = true) → Unicode.toUppercase s = s

theorem envNameFor_append [Unicode] (hupper : FixesNames) (pre : Str) {name : Str}
    (hname : ∀ c ∈ name, isNameChar c = true) : envNameFor (pre ++ name) pre = name := by
  have hstrip : (Str.stripPrefix pre (pre ++ name)).getD (pre ++ name) = name := by
    simp [Str.stripPrefix]
  rw [envNameFor, hstrip, hupper name hname]
  refine (List.map_congr_left fun c hc => ?_).trans (List.map_id name)
  have hchar := hname c hc
  have hne : ¬(c = '/' ∨ c = '-') := by
    rintro (rfl | rfl) <;> exact absurd hchar (by decide)
  rw [if_neg hne]
  rfl

/-- Where every key under the prefix is the prefix and an environment name,
`exec` injects each under that name, and no two under one. -/
theorem execEnv_of_names [Unicode] (hupper : FixesNames) {body : VaultBody} {pre : Str}
    (hnames : ∀ name, body.has (pre ++ name) = true → ∀ c ∈ name, isNameChar c = true) :
    ∃ injected skipped, collectExecEnv body pre = .ok (injected, skipped) ∧
      (injected.map Prod.fst).Nodup ∧ ∀ name value, (name, value) ∈ injected ↔
        ∃ tier, tierAllowsExecInjection tier = true ∧
          body.view (pre ++ name) = some (value, tier) := by
  have hkey : ∀ e ∈ allowedEntries tierAllowsExecInjection body pre,
      ∃ name, e.1 = pre ++ name ∧ envNameFor e.1 pre = name ∧
        tierAllowsExecInjection e.2.2 = true ∧ body.view e.1 = some (e.2.1, e.2.2) := by
    rintro ⟨key, value, tier⟩ he
    obtain ⟨⟨name, rfl⟩, hallows, hview⟩ := mem_allowedEntries.mp he
    have hhas : body.has (pre ++ name) = true := by
      rw [← VaultBody.isSome_view, hview]
      rfl
    exact ⟨name, rfl, envNameFor_append hupper pre (hnames name hhas), hallows, hview⟩
  have hexec := @collectExecEnv_eq body pre _
  refine ⟨_, _, hexec, ?_, fun name value => ?_⟩
  · have hnodup := @nodup_allowedEntries tierAllowsExecInjection body pre
    have hmap : ((allowedEntries tierAllowsExecInjection body pre).map fun e =>
        (envNameFor e.1 pre, e.2.1)).map Prod.fst =
        ((allowedEntries tierAllowsExecInjection body pre).map Prod.fst).map
          (envNameFor · pre) := by
      simp [Function.comp_def]
    rw [hmap]
    refine List.Nodup.map_on (fun x hx y hy hxy => ?_) hnodup
    obtain ⟨e, he, rfl⟩ := List.mem_map.mp hx
    obtain ⟨e', he', rfl⟩ := List.mem_map.mp hy
    obtain ⟨name, hname, henv, -⟩ := hkey e he
    obtain ⟨name', hname', henv', -⟩ := hkey e' he'
    rw [hname, hname', ← henv, ← henv', hxy]
  · constructor
    · intro h
      obtain ⟨e, he, heq⟩ := List.mem_map.mp h
      obtain ⟨name', hname, henv, hallows, hview⟩ := hkey e he
      cases heq
      rw [henv, ← hname]
      exact ⟨e.2.2, hallows, hview⟩
    · rintro ⟨tier, hallows, hview⟩
      have he := mem_allowedEntries.mpr ⟨List.prefix_append pre name, hallows, hview⟩
      obtain ⟨name', hname, henv, -⟩ := hkey _ he
      refine List.mem_map.mpr ⟨_, he, ?_⟩
      rw [henv, List.append_cancel_left hname]

/-- Uppercasing of ASCII letters. -/
@[reducible] def asciiUppercase : Unicode :=
  ⟨fun s => s.map Char.toUpper⟩

theorem toUpper_of_isNameChar {c : Char} (h : isNameChar c = true) : c.toUpper = c := by
  simp only [isNameChar, Bool.or_eq_true, beq_iff_eq] at h
  have hval : c.val = '_'.val ∨ c.val ≤ 90 := by
    rcases h with (hletter | hdigit) | rfl
    · have hrange : 'A'.val ≤ c.val ∧ c.val ≤ 'Z'.val := of_decide_eq_true hletter
      exact .inr hrange.2
    · have hnine : c.val ≤ '9'.val := of_decide_eq_true (Bool.and_eq_true_iff.mp hdigit).2
      exact .inr (UInt32.le_trans hnine (by decide))
    · exact .inl rfl
  unfold Char.toUpper
  rw [dif_neg]
  rintro ⟨hlow, -⟩
  rcases hval with hval | hval
  · rw [hval] at hlow
    exact absurd hlow (by decide)
  · exact absurd (UInt32.le_trans hlow hval) (by decide)

theorem asciiUppercase_fixesNames : @FixesNames asciiUppercase :=
  fun s hs =>
    (List.map_congr_left fun c hc => toUpper_of_isNameChar (hs c hc)).trans (List.map_id s)

end HearthVault
