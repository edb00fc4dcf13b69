/-
HearthVault.Cli.ListDue — which entries `list --due` lists.

The time that is left to a due date is cut towards zero, to whole seconds and
then to whole days, before it is compared with the window. So `--due N` lists
whatever is due in less than N + 1 days, and not only what is due within N
days; it is as promised if and only if nothing falls due in the day between
(`listDue_iff`). An entry without a date that can be read is never listed.
-/
import HearthVault.Cli.DueDates
import HearthVault.Lib.Lists

namespace HearthVault

open Files Calendar Elementwise

/-! ## The command -/

section

variable [Rfc3339]

/-- The instant that an entry is due at. -/
def VaultEntry.due (e : VaultEntry) : Option DateTime :=
  e.expiresAt.bind Rfc3339.parse

/-- `VaultEntry::rotation_state`: the clock is read for a date that was parsed. -/
def VaultEntry.rotationStateNow (e : VaultEntry) : Prog RotationState :=
  match e.due with
  | none => pure .noPolicy
  | some t => do
    let now ← Fx.now
    pure (rotationStateAt now t)

/-- The test of `--due`. -/
def RotationState.isDue (window : Int) : RotationState → Bool
  | .overdue _ => true
  | .ok daysLeft => daysLeft ≤ window
  | .noPolicy => false

/-- `entries.retain(..)`. -/
def retainDue (window : Int) : List VaultEntry → Prog (List VaultEntry)
  | [] => pure []
  | e :: entries => do
    let state ← e.rotationStateNow
    let rest ← retainDue window entries
    pure (if state.isDue window then e :: rest else rest)

/-- `rotation_word`. -/
def rotationWord (e : VaultEntry) : Prog String := do
  match ← e.rotationStateNow with
  | .noPolicy => pure "-"
  | .overdue daysOver => pure (if daysOver = 0 then "DUE TODAY" else s!"OVERDUE {daysOver}d")
  | .ok daysLeft => pure s!"due in {daysLeft}d"

/-- The entries that are printed, each with its rotation word. -/
def printRows : List VaultEntry → Prog (List (VaultEntry × String))
  | [] => pure []
  | e :: entries => do
    let word ← rotationWord e
    let rows ← printRows entries
    pure ((e, word) :: rows)

/-- What `list` prints on stdout and on stderr, and the exit code. -/
structure Printed where
  rows : List (VaultEntry × String)
  remark : Option String
  exitCode : Nat

/-- The exit code that a cron job goes by. -/
def dueExitCode (due : Option Int) (entries : List VaultEntry) : Nat :=
  if due.isSome ∧ entries ≠ [] then 1 else 0

/-- `cmd_list`, from the entries that are selected. -/
def printListing (json : Bool) (due : Option Int) (entries : List VaultEntry) : Prog Printed :=
  if json then do
    let rows ← printRows entries
    pure ⟨rows, none, dueExitCode due entries⟩
  else if entries = [] then
    if due.isSome then pure ⟨[], some "Nothing due for rotation.", 0⟩
    else pure ⟨[], some "Vault is empty. Use 'hearth-vault set <key>' to add credentials.", 0⟩
  else do
    let rows ← printRows entries
    pure ⟨rows, some s!"\n{entries.length} credential(s) stored.", dueExitCode due entries⟩

/-- `cmd_list`, from the entries of the vault. -/
def listEntries (json : Bool) (due : Option Int) (entries : List VaultEntry) : Prog Printed := do
  let entries ← match due with
    | some window => retainDue window entries
    | none => pure entries
  printListing json due entries

/-- `cmd_list`. The window of `--due` without a number is 0. -/
def cmdList (path : Path) (unlock : Unlock) (json : Bool) (due : Option (Option Int)) :
    Prog Printed := do
  let store ← openVault path unlock
  listEntries json (due.map fun days => days.getD 0) store.body.list

/-! ## What is promised -/

/-- Due within so many days of now. -/
def VaultEntry.dueWithin (window : Int) (now : DateTime) (e : VaultEntry) : Bool :=
  e.due.any fun t => t - now ≤ window * nanosPerDay

/-- The entries, each with the reading of the clock that its date is compared with. -/
def withReadings (m : Machine) : Nat → List VaultEntry → List (VaultEntry × DateTime)
  | _, [] => []
  | ticks, e :: entries =>
    (e, m.clock ticks) :: withReadings m (if e.due.isSome then ticks + 1 else ticks) entries

/-- The listing of a window: exactly the entries that are due within it. -/
structure Printed.AsPromised (listing : Printed) (window : Int)
    (entries : List (VaultEntry × DateTime)) : Prop where
  listed : listing.rows.map Prod.fst =
    (entries.filter fun p => p.1.dueWithin window p.2).map Prod.fst
  exitCode : listing.exitCode = 1 ↔ ∃ p ∈ entries, p.1.dueWithin window p.2
  readable : ∀ row ∈ listing.rows, row.1.due ≠ none

end

/-! ## Whole days -/

/-- A quotient that is cut towards zero, against a bound that is not negative. -/
theorem tdiv_le_iff {a b n : Int} (hb : 0 < b) (hn : 0 ≤ n) : a.tdiv b ≤ n ↔ a < (n + 1) * b := by
  obtain ha | ha := Int.le_total 0 a
  · rw [Int.tdiv_eq_ediv_of_nonneg ha, ← Int.lt_add_one_iff, Int.ediv_lt_iff_lt_mul hb]
  · have hbound : 0 < (n + 1) * b := Int.mul_pos (by omega) hb
    have hcut : a.tdiv b ≤ (0 : Int).tdiv b := Int.tdiv_le_tdiv hb ha
    rw [Int.zero_tdiv] at hcut
    exact iff_of_true (hcut.trans hn) (by omega)

theorem numDays_le_iff {delta window : Int} (hwindow : 0 ≤ window) :
    numDays delta ≤ window ↔ delta < (window + 1) * nanosPerDay := by
  rw [numDays, tdiv_le_iff (by decide) hwindow, ← Int.le_sub_one_iff, numSeconds,
    tdiv_le_iff (by decide) (by omega), Int.sub_add_cancel, Int.mul_assoc]
  rfl

/-- Due is what is due in less than a day more than the window. -/
theorem rotationStateAt_isDue_iff {window : Int} (hwindow : 0 ≤ window) (now t : DateTime) :
    (rotationStateAt now t).isDue window = true ↔ t - now < (window + 1) * nanosPerDay := by
  unfold rotationStateAt
  dsimp only
  split
  · rename_i hpast
    have hcut : numDays (t - now) ≤ (0 : Int).tdiv 86400 :=
      Int.tdiv_le_tdiv (by decide) hpast.le
    rw [Int.zero_tdiv] at hcut
    exact iff_of_true rfl ((numDays_le_iff hwindow).mp (hcut.trans hwindow))
  · rw [RotationState.isDue, decide_eq_true_iff, numDays_le_iff hwindow]

section

variable [Rfc3339] {window : Int} {m : Machine}

theorem dueWithin_iff {now : DateTime} {e : VaultEntry} :
    e.dueWithin window now = true ↔ ∃ t, e.due = some t ∧ t - now ≤ window * nanosPerDay := by
  rw [VaultEntry.dueWithin]
  cases e.due <;> simp

theorem rotationState_eq (e : VaultEntry) (now : DateTime) :
    e.rotationState now = (e.due.map (rotationStateAt now)).getD .noPolicy := by
  rw [VaultEntry.rotationState, VaultEntry.due]
  cases e.expiresAt.bind Rfc3339.parse <;> rfl

theorem rotationState_isDue_iff (hwindow : 0 ≤ window) {now : DateTime} {e : VaultEntry} :
    (e.rotationState now).isDue window = true ↔
      ∃ t, e.due = some t ∧ t - now < (window + 1) * nanosPerDay := by
  rw [rotationState_eq]
  cases e.due with
  | none => simp [RotationState.isDue]
  | some t => simpa using rotationStateAt_isDue_iff hwindow now t

/-! ## Runs of the command -/

theorem rotationStateNow_run (e : VaultEntry) (w : Disk) :
    e.rotationStateNow.run m w = (.ok (e.rotationState (m.clock w.ticks)),
      { w with ticks := if e.due.isSome then w.ticks + 1 else w.ticks }) := by
  rw [VaultEntry.rotationStateNow, rotationState_eq]
  cases e.due <;> rfl

theorem retainDue_run (entries : List VaultEntry) (w : Disk) :
    ∃ w', (retainDue window entries).run m w =
      (.ok (((withReadings m w.ticks entries).filter fun p =>
        (p.1.rotationState p.2).isDue window).map Prod.fst), w') := by
  induction entries generalizing w with
  | nil => exact ⟨w, rfl⟩
  | cons e entries ih =>
    obtain ⟨w', hrest⟩ := ih { w with ticks := if e.due.isSome then w.ticks + 1 else w.ticks }
    refine ⟨w', ?_⟩
    rw [retainDue, Fx.bind_run_ok (rotationStateNow_run e w), Fx.bind_run_ok hrest, Fx.pure_run,
      withReadings, List.filter_cons]
    split <;> rfl

theorem rotationWord_run (e : VaultEntry) (w : Disk) :
    ∃ word w', (rotationWord e).run m w = (.ok word, w') := by
  rw [rotationWord, Fx.bind_run_ok (rotationStateNow_run e w)]
  split <;> exact ⟨_, _, rfl⟩

theorem printRows_run (entries : List VaultEntry) (w : Disk) :
    ∃ rows w', (printRows entries).run m w = (.ok rows, w') ∧ rows.map Prod.fst = entries := by
  induction entries generalizing w with
  | nil => exact ⟨[], w, rfl, rfl⟩
  | cons e entries ih =>
    obtain ⟨word, w₁, hword⟩ := @rotationWord_run _ m e w
    obtain ⟨rows, w', hrows, hmap⟩ := ih w₁
    refine ⟨(e, word) :: rows, w', ?_, congrArg (e :: ·) hmap⟩
    rw [printRows, Fx.bind_run_ok hword, Fx.bind_run_ok hrows]
    rfl

/-- Every selected entry is printed, and the exit code is 1 when there is one. -/
theorem printListing_run (json : Bool) (entries : List VaultEntry) (w : Disk) :
    ∃ listing w', (printListing json (some window) entries).run m w = (.ok listing, w') ∧
      listing.rows.map Prod.fst = entries ∧ (listing.exitCode = 1 ↔ entries ≠ []) := by
  obtain ⟨rows, w', hrows, hmap⟩ := @printRows_run _ m entries w
  have hexit : dueExitCode (some window) entries = 1 ↔ entries ≠ [] := by
    simp [dueExitCode]
  rw [printListing]
  cases json with
  | true =>
    rw [if_pos rfl, Fx.bind_run_ok hrows]
    exact ⟨_, w', rfl, hmap, hexit⟩
  | false =>
    rw [if_neg Bool.false_ne_true]
    by_cases hnil : entries = []
    · rw [if_pos hnil]
      exact ⟨_, w, rfl, hnil.symm, by simp [hnil]⟩
    · rw [if_neg hnil, Fx.bind_run_ok hrows]
      exact ⟨_, w', rfl, hmap, hexit⟩

theorem listEntries_run (json : Bool) (entries : List VaultEntry) (w : Disk) :
    ∃ listing w', (listEntries json (some window) entries).run m w = (.ok listing, w') ∧
      listing.rows.map Prod.fst = ((withReadings m w.ticks entries).filter fun p =>
        (p.1.rotationState p.2).isDue window).map Prod.fst ∧
      (listing.exitCode = 1 ↔ listing.rows.map Prod.fst ≠ []) := by
  obtain ⟨w₁, hretain⟩ := @retainDue_run _ window m entries w
  obtain ⟨listing, w', hprint, hrows, hexit⟩ := @printListing_run _ window m json
    (((withReadings m w.ticks entries).filter fun p =>
      (p.1.rotationState p.2).isDue window).map Prod.fst) w₁
  refine ⟨listing, w', ?_, hrows, ?_⟩
  · rw [listEntries]
    dsimp only
    rw [Fx.bind_run_ok hretain, hprint]
  · rw [hexit, hrows]

/-! ## The window -/

theorem due_of_isDue {now : DateTime} {e : VaultEntry}
    (h : (e.rotationState now).isDue window = true) : e.due ≠ none := by
  intro hnone
  rw [rotationState_eq, hnone] at h
  simp [RotationState.isDue] at h

theorem isDue_of_dueWithin (hwindow : 0 ≤ window) {now : DateTime} {e : VaultEntry}
    (h : e.dueWithin window now = true) : (e.rotationState now).isDue window = true := by
  obtain ⟨t, ht, hle⟩ := dueWithin_iff.mp h
  refine (rotationState_isDue_iff hwindow).mpr ⟨t, ht, Int.lt_of_le_of_lt hle ?_⟩
  exact Int.mul_lt_mul_of_pos_right (Int.lt_succ window) (by decide)

/-- Due is no more than was promised, where the date is not within the day
after the window. -/
theorem dueWithin_of_isDue_iff (hwindow : 0 ≤ window) {now : DateTime} {e : VaultEntry} :
    ((e.rotationState now).isDue window = true → e.dueWithin window now = true) ↔
      ∀ t, e.due = some t →
        ¬(window * nanosPerDay < t - now ∧ t - now < (window + 1) * nanosPerDay) := by
  rw [rotationState_isDue_iff hwindow, dueWithin_iff]
  constructor
  · intro h t ht hbetween
    obtain ⟨hafter, hbefore⟩ := hbetween
    obtain ⟨t', ht', hle⟩ := h ⟨t, ht, hbefore⟩
    rw [ht] at ht'
    cases ht'
    exact absurd hle (Int.not_le.mpr hafter)
  · intro h hdue
    obtain ⟨t, ht, hbefore⟩ := hdue
    have hle : t - now ≤ window * nanosPerDay := by
      by_contra hafter
      exact h t ht ⟨Int.not_le.mp hafter, hbefore⟩
    exact ⟨t, ht, hle⟩

/-- What the command does: it lists whatever is due in less than a day more
than the window. -/
theorem cmdList_lists {path : Path} {unlock : Unlock} {w w₁ : Disk} {store : VaultStore}
    (hopen : (openVault path unlock).run m w = (.ok store, w₁)) (json : Bool) {days : Option Int}
    (hdays : 0 ≤ days.getD 0) :
    ∃ listing w', (cmdList path unlock json (some days)).run m w = (.ok listing, w') ∧
      (∀ e, e ∈ listing.rows.map Prod.fst ↔
        ∃ now t, (e, now) ∈ withReadings m w₁.ticks store.body.list ∧ e.due = some t ∧
          t - now < (days.getD 0 + 1) * nanosPerDay) ∧
      (listing.exitCode = 1 ↔ listing.rows.map Prod.fst ≠ []) := by
  obtain ⟨listing, w', hrun, hlisted, hexit⟩ :=
    @listEntries_run _ (days.getD 0) m json store.body.list w₁
  refine ⟨listing, w', ?_, fun e => ?_, hexit⟩
  · rw [cmdList, Fx.bind_run_ok hopen]
    exact hrun
  · rw [hlisted, List.mem_map]
    constructor
    · intro hlisted
      obtain ⟨⟨e, now⟩, hmem, rfl⟩ := hlisted
      obtain ⟨hmem, hdue⟩ := List.mem_filter.mp hmem
      obtain ⟨t, ht, hbefore⟩ := (rotationState_isDue_iff hdays).mp hdue
      exact ⟨now, t, hmem, ht, hbefore⟩
    · intro h
      obtain ⟨now, t, hmem, ht, hbefore⟩ := h
      have hdue := (rotationState_isDue_iff hdays).mpr ⟨t, ht, hbefore⟩
      exact ⟨(e, now), List.mem_filter.mpr ⟨hmem, hdue⟩, rfl⟩

/-- Exactly what is due within the window is listed, and the exit code says
so, if and only if nothing is due within the day after the window. -/
theorem listDue_iff (json : Bool) (hwindow : 0 ≤ window) (entries : List VaultEntry) (w : Disk) :
    (∃ listing w', (listEntries json (some window) entries).run m w = (.ok listing, w') ∧
      listing.AsPromised window (withReadings m w.ticks entries)) ↔
        ∀ p ∈ withReadings m w.ticks entries, ∀ t, p.1.due = some t →
          ¬(window * nanosPerDay < t - p.2 ∧ t - p.2 < (window + 1) * nanosPerDay) := by
  obtain ⟨listing, w', hrun, hlisted, hexit⟩ := @listEntries_run _ window m json entries w
  generalize withReadings m w.ticks entries = held at hlisted ⊢
  have hsame : listing.rows.map Prod.fst =
      (held.filter fun p => p.1.dueWithin window p.2).map Prod.fst ↔
        ∀ p ∈ held, (p.1.rotationState p.2).isDue window = true →
          p.1.dueWithin window p.2 = true := by
    rw [hlisted]
    exact map_filter_eq_iff (fun _ => isDue_of_dueWithin hwindow) Prod.fst held
  have hcondition := hsame.trans
    (forall₂_congr fun p _ => @dueWithin_of_isDue_iff _ window hwindow p.2 p.1)
  rw [← hcondition]
  constructor
  · intro h
    obtain ⟨listing', w₁, hrun', hpromised⟩ := h
    rw [hrun] at hrun'
    cases hrun'
    exact hpromised.listed
  · intro hrows
    have hcode : listing.exitCode = 1 ↔ ∃ p ∈ held, p.1.dueWithin window p.2 = true := by
      rw [hexit, hrows]
      simp
    have hreadable : ∀ row ∈ listing.rows, row.1.due ≠ none := by
      intro row hrow
      have hmem := List.mem_map_of_mem (f := Prod.fst) hrow
      rw [hlisted] at hmem
      obtain ⟨p, hp, heq⟩ := List.mem_map.mp hmem
      rw [← heq]
      exact due_of_isDue (List.mem_filter.mp hp).2
    exact ⟨listing, w', hrun, hrows, hcode, hreadable⟩

end

/-- The clock stands still at New Year. -/
def newYearMachine : Machine :=
  { Machine.quiet with clock _ := newYear }

/-- An entry with a date. -/
def dated (expiresAt : Option Str) : VaultEntry :=
  ⟨"k".toList, tierUseOnly, toRfc3339 newYear, toRfc3339 newYear, none, expiresAt⟩

/-- An entry that is due so many seconds from New Year. -/
def dueSeconds (seconds : Int) : VaultEntry :=
  dated (some (toRfc3339 (newYear + seconds * nanosPerSecond)))

/-- Two entries that are overdue, one that is due in two days, and two
without a date that can be read. -/
theorem listDue_iff_newYear :
    letI := printedRfc3339
    let entries := [dueSeconds (-1), dueSeconds 0, dueSeconds 172800, dated none,
      dated (some "tomorrow".toList)]
    ∃ listing w', (listEntries false (some 0) entries).run newYearMachine blankDisk =
      (.ok listing, w') ∧ listing.AsPromised 0 (withReadings newYearMachine 0 entries) := by
  let _ := printedRfc3339
  refine (@listDue_iff _ 0 newYearMachine false (Int.le_refl 0) _ blankDisk).mpr ?_
  decide

/-- What is due in twelve hours is listed as overdue, and what is due in seven
days and twelve hours as due within seven days. -/
theorem listDue_not_asPromised :
    letI := printedRfc3339
    (¬∃ listing w', (listEntries false (some 0) [dueSeconds 43200]).run newYearMachine blankDisk =
      (.ok listing, w') ∧
        listing.AsPromised 0 (withReadings newYearMachine 0 [dueSeconds 43200])) ∧
    ¬∃ listing w', (listEntries false (some 7) [dueSeconds 648000]).run newYearMachine blankDisk =
      (.ok listing, w') ∧
        listing.AsPromised 7 (withReadings newYearMachine 0 [dueSeconds 648000]) := by
  let _ := printedRfc3339
  have hlisted : ∀ window e, (e.rotationState newYear).isDue window = true →
      e.dueWithin window newYear = false →
      ¬∃ listing w', (listEntries false (some window) [e]).run newYearMachine blankDisk =
        (.ok listing, w') ∧ listing.AsPromised window (withReadings newYearMachine 0 [e]) := by
    rintro window e hdue hwithin ⟨listing, w', hrun, hpromised⟩
    obtain ⟨_, _, hrun', hrows, -⟩ :=
      @listEntries_run _ window newYearMachine false [e] blankDisk
    rw [hrun] at hrun'
    cases hrun'
    have hpromise := hpromised.listed
    rw [hrows] at hpromise
    simp [withReadings, newYearMachine, hdue, hwithin] at hpromise
  exact ⟨hlisted 0 _ (by decide) (by decide),
    hlisted 7 _ (by decide) (by decide)⟩

end HearthVault
