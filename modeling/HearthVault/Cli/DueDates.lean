/-
HearthVault.Cli.DueDates — due dates, and which of them can be read again.

A due date is computed as an instant, stored as a text, and parsed whenever
the rotation state of an entry is asked for. The parser takes years of four
digits, the calendar goes far beyond them, and the numbers that can be typed
go beyond the calendar. So a date that is asked for by a number of days is
kept if and only if it lies in the years from 0 to 9999 (`dueDates_iff`): past
them the text that is stored cannot be read and the entry reports no policy,
and further out the computation panics.
-/
import HearthVault.Agent.CacheTheorems
import HearthVault.Cli.ReceiveTheorems
import HearthVault.Lib.Rfc3339

namespace HearthVault

open Files Calendar

/-! ## Rotation states -/

/-- `DateTime::parse_from_rfc3339`, as an instant. -/
class Rfc3339 extends Chrono where
  parse : Str → Option DateTime

/-- What `chrono` promises of its parser: it reads years of four digits, and a
text that it has parsed and printed again is about the same instant. -/
structure Rfc3339.Documented [Rfc3339] : Prop where
  printed : ∀ t, Rfc3339.parse (toRfc3339 t) = if InYears t then some t else none
  accepted : ∀ s, (Chrono.reprint s).isSome = (Rfc3339.parse s).isSome
  reprinted : ∀ s text, Chrono.reprint s = some text → Rfc3339.parse text = Rfc3339.parse s

/-- `RotationState`. -/
inductive RotationState where
  | noPolicy
  | ok (daysLeft : Int)
  | overdue (daysOver : Int)
  deriving DecidableEq, Repr

/-- `TimeDelta::num_seconds` and `num_days`: both cut towards zero. -/
def numSeconds (delta : Int) : Int :=
  delta.tdiv nanosPerSecond

def numDays (delta : Int) : Int :=
  (numSeconds delta).tdiv 86400

/-- The state of an entry that is due at `t`. -/
def rotationStateAt (now t : DateTime) : RotationState :=
  let delta := t - now
  if numSeconds delta < 0 then .overdue (numDays (-delta)) else .ok (numDays delta)

/-- `VaultEntry::rotation_state`. -/
def VaultEntry.rotationState [Rfc3339] (e : VaultEntry) (now : DateTime) : RotationState :=
  match e.expiresAt.bind Rfc3339.parse with
  | none => .noPolicy
  | some t => rotationStateAt now t

/-! ## What is meant -/

/-- The instant so many days from now. -/
def dueAfter (now : DateTime) (days : Int) : DateTime :=
  now + days * nanosPerDay

/-- The days of a unit. -/
def unitDays (c : Char) : Option Int :=
  if c = 'd' then some 1 else if c = 'w' then some 7 else if c = 'm' then some 30
  else if c = 'y' then some 365 else none

/-- The days of a relative offset: a number and its unit. -/
def relativeDays (input : Str) : Option Int := do
  let unit ← (Str.trim input).getLast?.bind unitDays
  let n ← parseI64 (Str.trim input).dropLast
  some (n * unit)

/-- The instant that `--expires` names. -/
def meantBy [Rfc3339] (now : DateTime) (input : Str) : Option DateTime :=
  (Rfc3339.parse (Str.trim input)).or ((relativeDays input).map (dueAfter now))

/-- The instant, if any, that an entry is due at. -/
def DueAt [Rfc3339] (body : VaultBody) (key : Str) (t : Option DateTime) : Prop :=
  ∃ entry, body[key]? = some entry ∧ entry.expiresAt.bind Rfc3339.parse = t

/-- A change of an entry that ends with a value or an error, and leaves the
entry due at the instant that is meant. -/
structure KeepsDue [Rfc3339] (r : Result VaultBody) (key : Str) (t : Option DateTime) : Prop where
  plain : Plain r
  due : ∀ body, r = .ok body → DueAt body key t
  state : ∀ body, r = .ok body → ∀ e ∈ body.list, e.key = key → ∀ due, t = some due →
    ∀ now, e.rotationState now = rotationStateAt now due

section

variable [Rfc3339] {body : VaultBody} {key : Str} {t : Option DateTime} {r : Result VaultBody}

theorem rotationState_of_dueAt (h : DueAt body key t) {e : VaultEntry} (he : e ∈ body.list)
    (hkey : e.key = key) {due : DateTime} (hdue : t = some due) (now : DateTime) :
    e.rotationState now = rotationStateAt now due := by
  obtain ⟨entry, hentry, hparse⟩ := h
  obtain ⟨⟨key', entry'⟩, hmem, rfl⟩ := List.mem_map.mp he
  subst hkey
  rw [Std.ExtTreeMap.mem_toList_iff_getElem?_eq_some] at hmem
  rw [hmem] at hentry
  cases hentry
  rw [VaultEntry.rotationState]
  dsimp only
  rw [hparse, hdue]

theorem keepsDue_iff : KeepsDue r key t ↔ Plain r ∧ ∀ body, r = .ok body → DueAt body key t :=
  ⟨fun h => ⟨h.plain, h.due⟩, fun h => ⟨h.1, h.2, fun body hr _ he hkey _ hdue =>
    rotationState_of_dueAt (h.2 body hr) he hkey hdue⟩⟩

theorem keepsDue_bail (msg : String) : KeepsDue (bail msg) key t :=
  keepsDue_iff.mpr ⟨.bail msg, nofun⟩

theorem not_keepsDue_panic (msg : String) : ¬KeepsDue (.error (.panic msg)) key t := by
  intro h
  obtain ⟨_, ⟨⟩⟩ := h.plain _ rfl

theorem keepsDue_insert {entry : BodyEntry} :
    KeepsDue (.ok (body.insert key entry)) key t ↔ entry.expiresAt.bind Rfc3339.parse = t := by
  rw [keepsDue_iff]
  constructor
  · rintro ⟨-, hdue⟩
    obtain ⟨entry', hentry, hparse⟩ := hdue _ rfl
    rw [Std.ExtTreeMap.getElem?_insert_self] at hentry
    cases hentry
    exact hparse
  · intro hparse
    refine ⟨.ok _, ?_⟩
    rintro _ ⟨⟩
    exact ⟨entry, Std.ExtTreeMap.getElem?_insert_self, hparse⟩

end

/-! ## Adding days -/

section

variable {now : DateTime}

/-- Days are added, or it is a panic. -/
theorem addDays_cases (now : DateTime) (days : Int) :
    addDays now days = .ok (dueAfter now days) ∨ ∃ msg, addDays now days = .error (.panic msg) := by
  unfold addDays
  split
  · exact .inr ⟨_, rfl⟩
  dsimp only
  split
  · exact .inr ⟨_, rfl⟩
  · exact .inl rfl

/-- So many days lie between any present and a year of four digits. -/
theorem natAbs_days_le (hnow : minUtc ≤ now ∧ now ≤ maxUtc) {days : Int}
    (h : InYears (dueAfter now days)) : days.natAbs ≤ 200000000 := by
  have hlow : (-8334601228800000000000 : Int) ≤ now + days * 86400000000000 := h.range.1
  have hhigh : ¬(8210266876799999999999 : Int) < now + days * 86400000000000 :=
    Int.not_lt.mpr h.range.2
  have hnowlow : (-8334601228800000000000 : Int) ≤ now := hnow.1
  have hnowhigh : ¬(8210266876799999999999 : Int) < now := Int.not_lt.mpr hnow.2
  omega

/-- Towards a year of four digits days can be added. -/
theorem addDays_of_inYears (hnow : minUtc ≤ now ∧ now ≤ maxUtc) {days : Int}
    (h : InYears (dueAfter now days)) : addDays now days = .ok (dueAfter now days) := by
  have hdays := natAbs_days_le hnow h
  rw [addDays, if_neg (by omega)]
  dsimp only
  rw [if_neg]
  · rfl
  · rw [not_or, Int.not_lt, Int.not_lt]
    exact h.range

/-- A product that leads to a year of four digits has not wrapped. -/
theorem bmod_of_inYears (hnow : minUtc ≤ now ∧ now ≤ maxUtc) {days : Int}
    (h : InYears (dueAfter now days)) : Int.bmod days (2 ^ 64) = days := by
  have hdays := natAbs_days_le hnow h
  exact Int.bmod_eq_of_le (by omega) (by omega)

/-- A number before a unit, and no number there. -/
theorem parseWhen_of_unit [Chrono] {input : Str} (h : Chrono.reprint (Str.trim input) = none)
    {unit : Int} (hunit : (Str.trim input).getLast?.bind unitDays = some unit) :
    (∀ n, parseI64 (Str.trim input).dropLast = some n → parseWhen now input =
      addDays now (Int.bmod (n * unit) (2 ^ 64)) >>= fun due => .ok (toRfc3339 due)) ∧
    (parseI64 (Str.trim input).dropLast = none → ∃ msg, parseWhen now input = bail msg) := by
  unfold parseWhen
  dsimp only
  rw [h]
  split
  · rename_i heq
    cases heq
  · rename_i u _ heq
    have hu : u = unit := by split at heq <;> simp_all [unitDays]
    subst hu
    refine ⟨fun n hn => by rw [hn], fun hn => ?_⟩
    rw [hn]
    exact ⟨_, rfl⟩
  · rename_i heq
    obtain ⟨c, hlast, hc⟩ := Option.bind_eq_some_iff.mp hunit
    exfalso
    split at heq <;> simp_all [unitDays]

theorem parseWhen_of_no_unit [Chrono] {input : Str} (h : Chrono.reprint (Str.trim input) = none)
    (hunit : (Str.trim input).getLast?.bind unitDays = none) :
    ∃ msg, parseWhen now input = bail msg := by
  unfold parseWhen
  dsimp only
  rw [h]
  split
  · rename_i heq
    cases heq
  · rename_i heq
    exfalso
    split at heq <;> simp_all [unitDays]
  · exact ⟨_, rfl⟩

theorem parseWhen_relative [Chrono] {input : Str} (h : Chrono.reprint (Str.trim input) = none)
    {days : Int} (hdays : relativeDays input = some days) : parseWhen now input =
      addDays now (Int.bmod days (2 ^ 64)) >>= fun due => .ok (toRfc3339 due) := by
  obtain ⟨unit, hunit, hdays⟩ := Option.bind_eq_some_iff.mp hdays
  obtain ⟨n, hn, hdays⟩ := Option.bind_eq_some_iff.mp hdays
  cases hdays
  exact (parseWhen_of_unit h hunit).1 n hn

theorem parseWhen_unread [Chrono] {input : Str} (h : Chrono.reprint (Str.trim input) = none)
    (hdays : relativeDays input = none) : ∃ msg, parseWhen now input = bail msg := by
  cases hunit : (Str.trim input).getLast?.bind unitDays with
  | none => exact parseWhen_of_no_unit h hunit
  | some unit =>
    refine (parseWhen_of_unit h hunit).2 ?_
    cases hn : parseI64 (Str.trim input).dropLast with
    | none => rfl
    | some n =>
      rw [relativeDays, hunit, hn] at hdays
      cases hdays

theorem validateTier_bails {tier : UInt8} (h : ¬TierInRange tier) :
    ∃ msg, validateTier tier = bail msg := by
  unfold validateTier
  split
  · exact ⟨_, rfl⟩
  · rename_i hrange
    exact absurd (validateTier_eq_ok.mp (if_neg hrange)) h

variable [Rfc3339]

/-- An entry that gets the due date of so many days, where no product wraps on
the way to a year of four digits. -/
theorem addDays_keepsDue_iff (hdoc : Rfc3339.Documented) (hnow : minUtc ≤ now ∧ now ≤ maxUtc)
    {key : Str} {days added : Int} (hadded : InYears (dueAfter now days) → added = days)
    (change : Str → Result VaultBody) (hchange : ∀ text, ∃ (body : VaultBody) (entry : BodyEntry),
      change text = .ok (body.insert key entry) ∧ entry.expiresAt = some text) :
    KeepsDue (addDays now added >>= fun due => change (toRfc3339 due)) key
      (some (dueAfter now days)) ↔ InYears (dueAfter now days) := by
  obtain hadd | ⟨msg, hadd⟩ := addDays_cases now added
  · obtain ⟨body, entry, hok, hentry⟩ := hchange (toRfc3339 (dueAfter now added))
    rw [hadd, result_ok_bind, hok, keepsDue_insert, hentry, Option.bind_some]
    constructor
    · intro hparse
      rw [hdoc.printed] at hparse
      split at hparse
      · rename_i hyears
        rwa [Option.some.inj hparse] at hyears
      · cases hparse
    · intro hyears
      rw [hadded hyears, hdoc.printed, if_pos hyears]
  · rw [hadd, result_error_bind]
    refine iff_of_false (not_keepsDue_panic msg) fun hyears => ?_
    rw [hadded hyears, addDays_of_inYears hnow hyears] at hadd
    cases hadd

/-! ## Rotation policies -/

/-- An entry that gets the due date of a policy. -/
theorem dueFrom_keepsDue_iff (hdoc : Rfc3339.Documented) (hnow : minUtc ≤ now ∧ now ≤ maxUtc)
    {body : VaultBody} {key : Str} {days : Option UInt32} {entry : Option Str → BodyEntry}
    (hentry : ∀ due, (entry due).expiresAt = due) :
    KeepsDue (dueFrom now days >>= fun due => .ok (body.insert key (entry due))) key
      (days.map fun days => dueAfter now days.toNat) ↔
        ∀ n, days = some n → InYears (dueAfter now n.toNat) := by
  cases days with
  | none =>
    rw [dueFrom, result_ok_bind, keepsDue_insert, hentry]
    simp
  | some n =>
    have hn : (∀ k, some n = some k → InYears (dueAfter now k.toNat)) ↔
        InYears (dueAfter now n.toNat) := by simp
    rw [hn, dueFrom, bind_assoc]
    simp only [result_ok_bind]
    exact addDays_keepsDue_iff hdoc hnow (fun _ => rfl)
      (fun text => .ok (body.insert key (entry (some text))))
      fun text => ⟨body, entry (some text), rfl, hentry _⟩

theorem setRotation_keepsDue_iff (hdoc : Rfc3339.Documented) (hnow : minUtc ≤ now ∧ now ≤ maxUtc)
    (key : Str) (days : Option UInt32) (body : VaultBody) :
    KeepsDue (setRotation now key days body) key (days.map fun days => dueAfter now days.toNat) ↔
      ∀ n, body.has key = true → days = some n → InYears (dueAfter now n.toNat) := by
  rw [setRotation, modifyEntry, VaultBody.has]
  cases body[key]? with
  | none => simp [keepsDue_bail]
  | some old =>
    have hentry : ∀ due, { old with rotateDays := days, expiresAt := due : BodyEntry }.expiresAt =
        due := fun _ => rfl
    dsimp only
    rw [bind_assoc]
    simp only [result_ok_bind, Option.isSome_some, true_imp_iff]
    exact dueFrom_keepsDue_iff hdoc hnow hentry

theorem setEntry_keepsDue_iff (hdoc : Rfc3339.Documented) (hnow : minUtc ≤ now ∧ now ≤ maxUtc)
    (key value : Str) (tier : UInt8) (body : VaultBody) :
    KeepsDue (setEntry now key value tier body) key
      ((body.policy key).map fun days => dueAfter now days.toNat) ↔
        ∀ n, TierInRange tier → body.policy key = some n → InYears (dueAfter now n.toNat) := by
  rw [setEntry]
  by_cases htier : TierInRange tier
  · rw [validateTier_eq_ok.mpr htier, result_ok_bind, VaultBody.policy]
    unfold storedEntry
    simp only [htier, true_imp_iff]
    cases body[key]? with
    | none =>
      rw [Option.bind_none, Option.map_none]
      dsimp only
      rw [result_ok_bind, keepsDue_insert]
      simp
    | some old =>
      have hentry : ∀ due, (⟨value, tier, old.createdAt, toRfc3339 now, old.rotateDays, due⟩ :
          BodyEntry).expiresAt = due := fun _ => rfl
      dsimp only
      rw [bind_assoc]
      simp only [result_ok_bind]
      exact dueFrom_keepsDue_iff hdoc hnow hentry
  · obtain ⟨msg, hmsg⟩ := validateTier_bails htier
    rw [hmsg]
    exact iff_of_true (keepsDue_bail msg) fun n hrange => absurd hrange htier

/-! ## Explicit due dates -/

theorem expires_keepsDue_iff (hdoc : Rfc3339.Documented) (hnow : minUtc ≤ now ∧ now ≤ maxUtc)
    (input key : Str) {body : VaultBody} (hhas : body.has key = true) :
    KeepsDue (parseWhen now input >>= fun due => setExpiry key (some due) body) key
      (meantBy now input) ↔
        ∀ days, Rfc3339.parse (Str.trim input) = none → relativeDays input = some days →
          InYears (dueAfter now days) := by
  obtain ⟨old, hold⟩ := Option.isSome_iff_exists.mp hhas
  have hset : ∀ due, setExpiry key (some due) body =
      .ok (body.insert key { old with expiresAt := some due }) := by
    intro due
    rw [setExpiry, modifyEntry, hold]
    rfl
  have haccepted := hdoc.accepted (Str.trim input)
  cases hreprint : Chrono.reprint (Str.trim input) with
  | some text =>
    rw [hreprint] at haccepted
    obtain ⟨t, ht⟩ := Option.isSome_iff_exists.mp haccepted.symm
    have hparse : parseWhen now input = .ok text := by
      unfold parseWhen
      dsimp only
      rw [hreprint]
    rw [hparse, result_ok_bind, hset, keepsDue_insert, meantBy, ht]
    have hsame := hdoc.reprinted _ _ hreprint
    simp [hsame, ht]
  | none =>
    rw [hreprint] at haccepted
    have hnone : Rfc3339.parse (Str.trim input) = none :=
      Option.isSome_eq_false_iff.mp haccepted.symm |> Option.isNone_iff_eq_none.mp
    cases hdays : relativeDays input with
    | none =>
      obtain ⟨msg, hmsg⟩ := @parseWhen_unread now _ input hreprint hdays
      rw [hmsg]
      exact iff_of_true (keepsDue_bail msg) (by simp)
    | some days =>
      have hmeant : meantBy now input = some (dueAfter now days) := by
        rw [meantBy, hnone, hdays]
        rfl
      have hcond : (∀ k, Rfc3339.parse (Str.trim input) = none → some days = some k →
          InYears (dueAfter now k)) ↔ InYears (dueAfter now days) := by simp [hnone]
      rw [hcond, hmeant, parseWhen_relative hreprint hdays, bind_assoc]
      simp only [result_ok_bind]
      exact addDays_keepsDue_iff hdoc hnow (bmod_of_inYears hnow)
        (fun text => setExpiry key (some text) body)
        fun text => ⟨body, { old with expiresAt := some text }, hset text, rfl⟩

end

/-! ## The deadline of the agent -/

/-- An agent answers every line as long as its deadline is an instant. -/
theorem handle_plain_iff (ttl : UInt64) (start : Agent.Instant) :
    (∀ cache line, Plain (Agent.handle (ttl.toNat * 1000000000) start cache line)) ↔
      (start + ttl.toNat * 1000000000) / 1000000000 ≤ 9223372036854775807 := by
  constructor
  · intro hplain
    by_contra hlate
    let key : Agent.Bytes32 := ⟨List.replicate 32 0, List.length_replicate⟩
    let _ : Agent.Blake3 := ⟨fun _ => key⟩
    have hput := hplain ∅ (.text (Agent.putLine [] key))
    rw [Agent.handle, Agent.parseRequest_putLine, Agent.answer, Agent.deadline,
      if_neg hlate] at hput
    obtain ⟨_, ⟨⟩⟩ := hput _ rfl
  · intro hdeadline cache line
    have hanswer : ∀ request,
        Plain (Agent.answer (ttl.toNat * 1000000000) start cache request) := by
      intro request
      cases request with
      | put id key =>
        rw [Agent.answer, Agent.deadline, if_pos hdeadline]
        exact .ok _
      | get id =>
        unfold Agent.answer
        dsimp only
        split <;> exact .ok _
      | _ => exact .ok _
    cases line with
    | text s => exact hanswer _
    | garbage bytes => exact .ok _

/-! ## All of them -/

/-- Wherever a number makes a due date, the entry is due when it was meant to
be if and only if that is in a year of four digits; and the agent answers if
and only if its deadline is an instant. -/
theorem dueDates_iff [Rfc3339] (hdoc : Rfc3339.Documented) {now : DateTime}
    (hnow : minUtc ≤ now ∧ now ≤ maxUtc) :
    (∀ (key : Str) (days : Option UInt32) (body : VaultBody),
      KeepsDue (setRotation now key days body) key
        (days.map fun days => dueAfter now days.toNat) ↔
          ∀ n, body.has key = true → days = some n → InYears (dueAfter now n.toNat)) ∧
    (∀ (key value : Str) (tier : UInt8) (body : VaultBody),
      KeepsDue (setEntry now key value tier body) key
        ((body.policy key).map fun days => dueAfter now days.toNat) ↔
          ∀ n, TierInRange tier → body.policy key = some n → InYears (dueAfter now n.toNat)) ∧
    (∀ (input key : Str) (body : VaultBody), body.has key = true →
      (KeepsDue (parseWhen now input >>= fun due => setExpiry key (some due) body) key
        (meantBy now input) ↔
          ∀ days, Rfc3339.parse (Str.trim input) = none → relativeDays input = some days →
            InYears (dueAfter now days))) ∧
    ∀ (ttl : UInt64) (start : Agent.Instant),
      (∀ cache line, Plain (Agent.handle (ttl.toNat * 1000000000) start cache line)) ↔
        (start + ttl.toNat * 1000000000) / 1000000000 ≤ 9223372036854775807 :=
  ⟨setRotation_keepsDue_iff hdoc hnow, setEntry_keepsDue_iff hdoc hnow,
    fun input key _ hhas => expires_keepsDue_iff hdoc hnow input key hhas, handle_plain_iff⟩

/-- A parser of the texts that `toRfc3339` prints. -/
@[reducible] def printedRfc3339 : Rfc3339 where
  reprint s := (readRfc3339 s).map fun _ => s
  parse := readRfc3339

theorem printedRfc3339_documented : @Rfc3339.Documented printedRfc3339 := by
  let _ := printedRfc3339
  refine ⟨readRfc3339_toRfc3339, fun s => ?_, fun s text h => ?_⟩
  · exact Option.isSome_map
  · obtain ⟨t, -, rfl⟩ := Option.map_eq_some_iff.mp h
    rfl

/-- New Year of 2026. -/
def newYear : DateTime := 1767225600000000000

theorem newYear_range : minUtc ≤ newYear ∧ newYear ≤ maxUtc := by decide

/-- A vault with one entry. -/
def oneEntry : VaultBody :=
  (∅ : VaultBody).insert "k".toList
    ⟨"v".toList, tierUseOnly, toRfc3339 newYear, toRfc3339 newYear, none, none⟩

theorem oneEntry_has : oneEntry.has "k".toList = true := by
  rw [VaultBody.has, oneEntry, Std.ExtTreeMap.getElem?_insert_self]
  rfl

theorem dueDates_iff_newYear :
    letI := printedRfc3339
    KeepsDue (setRotation newYear "k".toList (some 90) oneEntry) "k".toList
      (some (dueAfter newYear 90)) ∧
    KeepsDue (parseWhen newYear "2w".toList >>= fun due =>
      setExpiry "k".toList (some due) oneEntry) "k".toList (meantBy newYear "2w".toList) ∧
    ∀ cache line, Plain (Agent.handle ((28800 : UInt64).toNat * 1000000000) 5 cache line) := by
  let _ := printedRfc3339
  obtain ⟨hrotation, -, hexpires, hagent⟩ :=
    dueDates_iff printedRfc3339_documented newYear_range
  refine ⟨(hrotation "k".toList (some 90) oneEntry).mpr ?_,
    (hexpires "2w".toList "k".toList oneEntry oneEntry_has).mpr ?_, (hagent 28800 5).mpr ?_⟩
  · rintro n - ⟨⟩
    decide
  · intro days _ hdays
    have htwo : relativeDays "2w".toList = some 14 := by decide
    rw [htwo] at hdays
    cases hdays
    decide
  · decide

/-- Days beyond the calendar, days beyond the year 9999, a product that wraps,
and a time to live beyond the last instant. -/
theorem dueDates_not_kept :
    letI := printedRfc3339
    ¬KeepsDue (setRotation newYear "k".toList (some 4294967295) oneEntry) "k".toList
      (some (dueAfter newYear 4294967295)) ∧
    ¬KeepsDue (setRotation newYear "k".toList (some 3000000) oneEntry) "k".toList
      (some (dueAfter newYear 3000000)) ∧
    ¬KeepsDue (parseWhen newYear "2635249153387078803w".toList >>= fun due =>
      setExpiry "k".toList (some due) oneEntry) "k".toList
      (meantBy newYear "2635249153387078803w".toList) ∧
    ¬∀ cache line, Plain (Agent.handle ((18446744073709551615 : UInt64).toNat * 1000000000) 5
      cache line) := by
  let _ := printedRfc3339
  have hrotation := fun n =>
    setRotation_keepsDue_iff printedRfc3339_documented newYear_range "k".toList (some n) oneEntry
  refine ⟨fun h => ?_, fun h => ?_, fun h => ?_, fun h => ?_⟩
  · exact absurd ((hrotation 4294967295).mp h _ oneEntry_has rfl) (by decide)
  · exact absurd ((hrotation 3000000).mp h _ oneEntry_has rfl) (by decide)
  · have hyears := (expires_keepsDue_iff printedRfc3339_documented newYear_range
      "2635249153387078803w".toList "k".toList oneEntry_has).mp h 18446744073709551621
      (by decide) (by decide)
    exact absurd hyears (by decide)
  · exact absurd ((handle_plain_iff 18446744073709551615 5).mp h) (by decide)

end HearthVault
