/-
HearthVault.Cli.ImportTheorems — what `import-env` leaves of a dotenv file.

The file is deleted once for all its assignments, after those that were stored
are verified. Under each key is then the last value that was stored, or with
no `--force` the first, or the value that the vault had before
(`Saves.value?_importItems`); that is the file's own last assignment only
where these are the same.
-/
import HearthVault.Cli.RotationTheorems
import HearthVault.Cli.SinkTheorems

namespace HearthVault

open Files Symbolic Calendar Bindings

/-! ## What is stored -/

/-- The value that `import-env` leaves under a name: with `--force` the last
one of the file, otherwise the one of the vault, or else the first. -/
def importedValue (force : Bool) (body : VaultBody) (pre : Str) (pairs : List (Str × Str))
    (name : Str) : Option Str :=
  if force then (last (nonEmpty pairs) name).or (body.value? (pre ++ name))
  else (body.value? (pre ++ name)).or (first (nonEmpty pairs) name)

theorem append_injective (pre : Str) : Function.Injective fun name : Str => pre ++ name :=
  fun _ _ h => List.append_cancel_left h

theorem importItems_eq (pre : Str) (tier : UInt8) (pairs : List (Str × Str)) :
    importItems pre tier pairs = (nonEmpty pairs).map fun p => (pre ++ p.1, p.2, tier) :=
  rfl

section

variable {path : Path} {w w' : Disk} {body body' : VaultBody} {pre : Str} {tier : UInt8}
  {force : Bool} {pairs : List (Str × Str)}

theorem Saves.view_importItems
    (h : Saves path w body (taken force body.view (importItems pre tier pairs)) body' w')
    (name : Str) : body'.view (pre ++ name) =
      if force then ((last (nonEmpty pairs) name).map (·, tier)).or (body.view (pre ++ name))
      else (body.view (pre ++ name)).or ((first (nonEmpty pairs) name).map (·, tier)) := by
  rw [h.view, putAll_taken, importItems_eq,
    last_map_key (append_injective pre) (fun value => (value, tier)),
    first_map_key (append_injective pre) (fun value => (value, tier))]

theorem Saves.value?_importItems
    (h : Saves path w body (taken force body.view (importItems pre tier pairs)) body' w')
    (name : Str) : body'.value? (pre ++ name) = importedValue force body pre pairs name := by
  rw [VaultBody.value?_eq_view, h.view_importItems, importedValue, VaultBody.value?_eq_view]
  cases force with
  | true => cases last (nonEmpty pairs) name <;> rfl
  | false => cases body.view (pre ++ name) <;> cases first (nonEmpty pairs) name <;> rfl

end

/-! ## The source that is deleted -/

section

variable [JsonText] {m : Machine} {path : Path} {w : Disk} {unlock : Unlock} {file : FileArg}
  {pre : Option Str} {tier : UInt8} {force : Bool}

theorem fileText_eq_some {fs : Path → Option Contents} {q : Path} {text : Str} :
    fileText fs q = some text ↔ ∃ c, fs q = some c ∧ c.asText = .ok text := by
  unfold fileText
  cases fs q with
  | none => simp
  | some c => cases h : c.asText <;> simp [h, Except.toOption]

/-- A source that is gone was stored, and what was stored agrees. -/
theorem cmdImportEnv_deletes (hm : m.Faultless) (hapart : ImportApart path file false) {text : Str}
    (hfile : fileText w.fs file.path = some text)
    (hgone : ((cmdImportEnv path unlock file pre tier false force).run m w).2.fs file.path = none) :
    ∃ body body', Saves path w body
      (taken force body.view (importItems (pre.getD []) tier (parseDotenv text))) body'
      ((cmdImportEnv path unlock file pre tier false force).run m w).2 := by
  obtain ⟨c, hfile, htext⟩ := fileText_eq_some.mp hfile
  have hthere : ∀ {r : Result Unit} {v : Disk},
      (cmdImportEnv path unlock file pre tier false force).run m w = (r, v) →
      v.fs file.path = w.fs file.path → False := by
    intro r v hrun hkept
    rw [hrun, hkept, hfile] at hgone
    cases hgone
  by_cases hpairs : parseDotenv text ≠ []
  swap
  · obtain ⟨e, v, hframe, hrun⟩ :=
      @cmdImportEnv_unread _ m path w unlock file pre tier false force hm
      fun ⟨c', text', hfile', htext', hpairs'⟩ => by
        rw [hfile] at hfile'
        cases hfile'
        rw [htext] at htext'
        cases htext'
        exact hpairs hpairs'
    exact (hthere hrun (hframe.fs _ (by simp))).elim
  by_cases hopens : ∃ body, unlock.Opens path (w.fs path) body
  · obtain ⟨body, hopens⟩ := hopens
    obtain ⟨store, v, hcurrent, rfl, -, hothers, hrun⟩ :=
      @cmdImportEnv_run _ m path w unlock file pre tier false force hm _ _ _
        hfile htext hpairs hopens
    have hsource : v.fs file.path = w.fs file.path := hothers _ (hapart.source rfl)
    rcases hloop : (importPairs (pre.getD []) tier force (parseDotenv text) store).run m v with
      ⟨r, v'⟩
    cases r with
    | error e =>
      have hkept : ((importPairs (pre.getD []) tier force (parseDotenv text) store).run m v).2.fs
          file.path = v.fs file.path :=
        (importPairs_footprint (S := ∅) hcurrent.place).run_fs (by simp)
      rw [hloop] at hkept
      rw [Fx.bind_run_error hloop] at hrun
      exact (hthere hrun (hkept.trans hsource)).elim
    | ok result =>
      obtain ⟨store', expected⟩ := result
      obtain ⟨msg, u, hsaves, -, hcommit⟩ := cmdImportEnv_commit hm hcurrent hapart
        (fun _ => by rw [hsource, hfile]; rfl) hloop
      rw [hrun, hcommit]
      exact ⟨store.body, store'.body, hsaves.from hopens.entries⟩
  · obtain ⟨w₁, hw₁, hreads⟩ :=
      @cmdImportEnv_reads _ m path w unlock file pre tier false force hm _ _ hfile htext hpairs
    obtain ⟨msg, v, hopen, -⟩ :=
      openVault_refused hm (show ∀ body, ¬unlock.Opens path (w₁.fs path) body by
        rw [hw₁.fs path (by simp)]
        exact not_exists.mp hopens)
    have hkept : ((openVault path unlock).run m w₁).2.fs file.path = w₁.fs file.path :=
      (openVault_footprint subset_rfl unlock).run_fs (hapart.source rfl)
    rw [hopen] at hkept
    rw [Fx.bind_run_error hopen] at hreads
    exact (hthere hreads (hkept.trans (hw₁.fs _ (by simp)))).elim

/-- Of every name that has a value in the file the last assignment is, with
`--force`, a value; and otherwise the value that the vault has already, or when
it has none the first value in the file. -/
def LastKept (force : Bool) (body : VaultBody) (pre : Str) (pairs : List (Str × Str)) : Prop :=
  ∀ p ∈ pairs, p.2 ≠ [] →
    if force then last pairs p.1 ≠ some []
    else match body.value? (pre ++ p.1) with
      | some old => last pairs p.1 = some old
      | none => last pairs p.1 = first (nonEmpty pairs) p.1

omit [JsonText] in
theorem lastKept_iff {body : VaultBody} {pre : Str} {pairs : List (Str × Str)} :
    LastKept force body pre pairs ↔
      ∀ p ∈ pairs, p.2 ≠ [] → importedValue force body pre pairs p.1 = last pairs p.1 := by
  refine forall₃_congr fun p hp hvalue => ?_
  have hmem : p ∈ nonEmpty pairs := List.mem_filter.mpr ⟨hp, decide_eq_true hvalue⟩
  obtain ⟨v, hv⟩ := Option.isSome_iff_exists.mp (last_isSome.mpr ⟨p.2, hp⟩)
  cases force with
  | true =>
    obtain ⟨u, hu⟩ := Option.isSome_iff_exists.mp (last_isSome.mpr ⟨p.2, hmem⟩)
    have himported : importedValue true body pre pairs p.1 = some u := by
      simp [importedValue, hu]
    rw [if_pos rfl, himported, hv]
    constructor
    · intro hne
      have hlast := last_filter (q := fun x => decide (x ≠ [])) hv (by simpa using hne)
      exact hu.symm.trans hlast
    · rintro ⟨⟩ hnil
      cases hnil
      exact of_decide_eq_true (List.mem_filter.mp (last_eq_some_mem hu)).2 rfl
  | false =>
    rw [if_neg (by simp), importedValue, if_neg (by simp)]
    cases body.value? (pre ++ p.1) with
    | none => exact eq_comm
    | some old => exact eq_comm

/-- Where the source is deleted, the vault has the last assignment of every
name that has a value in it if and only if that is what was to be stored. -/
theorem importEnv_keepsValues (hm : m.Faultless) (hapart : ImportApart path file false) {text : Str}
    (hfile : fileText w.fs file.path = some text)
    (hgone : ((cmdImportEnv path unlock file pre tier false force).run m w).2.fs file.path = none) :
    (∃ body',
      Entries (((cmdImportEnv path unlock file pre tier false force).run m w).2.fs path) body' ∧
      ∀ p ∈ parseDotenv text, p.2 ≠ [] →
        body'.value? (pre.getD [] ++ p.1) = last (parseDotenv text) p.1) ↔
      ∀ body, Entries (w.fs path) body → LastKept force body (pre.getD []) (parseDotenv text) := by
  obtain ⟨body, body', hsaves⟩ := cmdImportEnv_deletes hm hapart hfile hgone
  constructor
  · rintro ⟨body'', hafter, hkept⟩ body₀ hbefore
    refine lastKept_iff.mpr fun p hp hvalue => ?_
    cases hafter.unique hsaves.after
    cases hbefore.unique hsaves.before
    exact (hsaves.value?_importItems p.1).symm.trans (hkept p hp hvalue)
  · intro h
    refine ⟨body', hsaves.after, fun p hp hvalue => ?_⟩
    rw [hsaves.value?_importItems]
    exact lastKept_iff.mp (h body hsaves.before) p hp hvalue

end

/-- A file that has one name twice, with one value, imported over a vault that
has another value for it. -/
theorem importEnv_keepsValues_repeated :
    letI := noJsonText
    ∃ body', Entries (((cmdImportEnv vaultJson pwUnlock envArg none tierUseOnly false true).run
        .quiet (vaultDisk twoTiers "A=1\nC=2\nA=1".toList)).2.fs vaultJson) body' ∧
      ∀ p ∈ parseDotenv "A=1\nC=2\nA=1".toList, p.2 ≠ [] →
        body'.value? ((none : Option Str).getD [] ++ p.1) =
          last (parseDotenv "A=1\nC=2\nA=1".toList) p.1 := by
  let _ := noJsonText
  refine (importEnv_keepsValues Machine.quiet_faultless envArg_apart rfl (by decide)).mpr
    fun body hbody => ?_
  obtain rfl : body = twoTiers := hbody.unique (vaultDisk_opens _ _).entries
  have hkept : ∀ p ∈ parseDotenv "A=1\nC=2\nA=1".toList, p.2 ≠ [] →
      importedValue true twoTiers ((none : Option Str).getD [])
        (parseDotenv "A=1\nC=2\nA=1".toList) p.1 =
      last (parseDotenv "A=1\nC=2\nA=1".toList) p.1 := by decide
  exact lastKept_iff.mpr hkept

/-- Of two values that a file has for a name the first is stored, and the file
is deleted. -/
theorem importEnv_loses_value :
    ¬∀ (_ : JsonText) (m : Machine) (path : Path) (w : Disk) (unlock : Unlock) (file : FileArg)
      (pre : Option Str) (tier : UInt8) (force : Bool) (text : Str), m.Faultless →
      ImportApart path file false → fileText w.fs file.path = some text →
      ((cmdImportEnv path unlock file pre tier false force).run m w).2.fs file.path = none →
      ∃ body', Entries (((cmdImportEnv path unlock file pre tier false force).run m w).2.fs path)
          body' ∧
        ∀ p ∈ parseDotenv text, p.2 ≠ [] →
          body'.value? (pre.getD [] ++ p.1) = last (parseDotenv text) p.1 := by
  intro h
  let _ := noJsonText
  obtain ⟨body', hafter, hkept⟩ := h noJsonText .quiet vaultJson (envDisk "A=1\nA=2".toList)
    pwUnlock
    envArg none tierUseOnly false "A=1\nA=2".toList Machine.quiet_faultless envArg_apart rfl
    (by decide)
  have hstored : (sealedBody (((cmdImportEnv vaultJson pwUnlock envArg none tierUseOnly false
      false).run .quiet (envDisk "A=1\nA=2".toList)).2.fs vaultJson)).bind
      (VaultBody.value? · "A".toList) = some "1".toList := by decide
  obtain ⟨body, hbody, hvalue⟩ := Option.bind_eq_some_iff.mp hstored
  cases hafter.unique (entries_of_sealedBody hbody)
  have hlast := hkept ("A".toList, "1".toList) (by decide) (by decide)
  rw [show (none : Option Str).getD [] ++ "A".toList = "A".toList from rfl, hvalue] at hlast
  exact absurd hlast (by decide)

end HearthVault
