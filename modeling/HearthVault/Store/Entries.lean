/-
HearthVault.Store.Entries — the operations of `VaultStore` on the body of an
open vault, as functions of the body.

Everything here works on a `VaultBody` in memory; nothing reads or writes a
file. The wall clock is an argument, and an overflow of the calendar is the
panic it is in `chrono`. `validateTier` guards the two operations that write
a tier, `setEntry` and `retierEntry`: they keep `VaultBody.TiersInRange`
(`setEntry_tiersInRange`, `retierEntry_tiersInRange`).
-/
import HearthVault.Lib.Calendar
import HearthVault.Store.Format

namespace HearthVault

open Files Calendar

/-! ## Tiers -/

def tierUseOnly : UInt8 := 3

def tierSignOnly : UInt8 := 4

def tierMax : UInt8 := tierSignOnly

/-- `validate_tier`. -/
def validateTier (tier : UInt8) : Result Unit :=
  if tier = 0 ∨ tier > tierMax then
    bail (s!"invalid tier {tier} — must be 1..={tierMax} " ++
      s!"(1/2 exportable, 3 use-only, {tierSignOnly} sign-only)")
  else .ok ()

/-- The tiers `validate_tier` lets through. -/
def TierInRange (tier : UInt8) : Prop :=
  1 ≤ tier ∧ tier ≤ 4
  deriving Decidable

theorem validateTier_eq_ok {tier : UInt8} : validateTier tier = .ok () ↔ TierInRange tier := by
  have hzero : tier = 0 ∨ tier > tierMax ↔ ¬TierInRange tier := by
    simp only [TierInRange, tierMax, tierSignOnly, UInt8.le_iff_toNat_le, gt_iff_lt,
      UInt8.lt_iff_toNat_lt, ← UInt8.toNat_inj]
    simp
    omega
  unfold validateTier
  by_cases h : TierInRange tier <;> simp [hzero, h, bail]

/-- Every entry has a tier in range. -/
def VaultBody.TiersInRange (body : VaultBody) : Prop :=
  ∀ (key : Str) (entry : BodyEntry), body[key]? = some entry → TierInRange entry.tier

theorem VaultBody.tiersInRange_empty : VaultBody.TiersInRange ∅ := by
  intro key entry h
  simp at h

/-! ## Reading -/

/-- `VaultEntry`: what `list` shows of an entry. -/
structure VaultEntry where
  key : Str
  tier : UInt8
  createdAt : Str
  updatedAt : Str
  rotateDays : Option UInt32
  expiresAt : Option Str
  deriving DecidableEq, Repr

/-- `VaultStore::list`. -/
def VaultBody.list (body : VaultBody) : List VaultEntry :=
  body.toList.map fun (key, e) =>
    ⟨key, e.tier, e.createdAt, e.updatedAt, e.rotateDays, e.expiresAt⟩

/-- `VaultStore::get`. -/
def VaultBody.value? (body : VaultBody) (key : Str) : Option Str :=
  body[key]?.map BodyEntry.value

/-- `VaultStore::tier_of`. -/
def VaultBody.tierOf (body : VaultBody) (key : Str) : Option UInt8 :=
  body[key]?.map BodyEntry.tier

/-- `VaultStore::has`. -/
def VaultBody.has (body : VaultBody) (key : Str) : Bool :=
  body[key]?.isSome

/-- `VaultStore::entries_with_prefix`. -/
def VaultBody.entriesWithPrefix (body : VaultBody) (pre : Str) : List (Str × Str × UInt8) :=
  (body.toList.filter fun (key, _) => pre.isPrefixOf key).map fun (key, e) =>
    (key, e.value, e.tier)

/-! ## Writing -/

/-- `now + Duration::days(days)`. -/
def addDays (now : DateTime) (days : Int) : Result DateTime :=
  if (days * 86400000).natAbs > 9223372036854775807 then
    .error (.panic "TimeDelta::days out of bounds")
  else
    let due := now + days * nanosPerDay
    if due < minUtc ∨ maxUtc < due then .error (.panic "`DateTime + TimeDelta` overflowed")
    else .ok due

/-- `due_from`. -/
def dueFrom (now : DateTime) (rotateDays : Option UInt32) : Result (Option Str) :=
  match rotateDays with
  | none => .ok none
  | some days => do
    let due ← addDays now days.toNat
    .ok (some (toRfc3339 due))

/-- The entry `set` stores: a new value moves the due date of the policy
there is. -/
def storedEntry (now : DateTime) (existing : Option BodyEntry) (value : Str) (tier : UInt8) :
    Result BodyEntry :=
  match existing with
  | some existing => do
    let expiresAt ← dueFrom now existing.rotateDays
    .ok { value, tier, createdAt := existing.createdAt, updatedAt := toRfc3339 now,
          rotateDays := existing.rotateDays, expiresAt }
  | none =>
    .ok { value, tier, createdAt := toRfc3339 now, updatedAt := toRfc3339 now,
          rotateDays := none, expiresAt := none }

/-- `VaultStore::set`. -/
def setEntry (now : DateTime) (key value : Str) (tier : UInt8) (body : VaultBody) :
    Result VaultBody := do
  validateTier tier
  let entry ← storedEntry now body[key]? value tier
  .ok (body.insert key entry)

/-- `get_mut(key).ok_or("no such key")`, and a change in place. -/
def modifyEntry (key : Str) (f : BodyEntry → Result BodyEntry) (body : VaultBody) :
    Result VaultBody :=
  match body[key]? with
  | some entry => do
    let entry ← f entry
    .ok (body.insert key entry)
  | none => bail s!"no such key: {String.ofList key}"

/-- `VaultStore::set_rotation`. -/
def setRotation (now : DateTime) (key : Str) (rotateDays : Option UInt32) :
    VaultBody → Result VaultBody :=
  modifyEntry key fun entry => do
    let expiresAt ← dueFrom now rotateDays
    .ok { entry with rotateDays, expiresAt }

/-- `VaultStore::set_expiry`. -/
def setExpiry (key : Str) (expiresAt : Option Str) : VaultBody → Result VaultBody :=
  modifyEntry key fun entry => .ok { entry with expiresAt }

/-- `VaultStore::delete`, and whether the key was there. -/
def deleteEntry (key : Str) (body : VaultBody) : VaultBody × Bool :=
  (body.erase key, body.has key)

/-- `VaultStore::rename`. -/
def renameEntry (source target : Str) (body : VaultBody) : Result VaultBody :=
  if source = target then .ok body
  else match body[source]? with
    | none => bail s!"no such key: {String.ofList source}"
    | some entry =>
      if body.has target then bail s!"target key already exists: {String.ofList target}"
      else .ok ((body.erase source).insert target entry)

/-- `VaultStore::retier`. -/
def retierEntry (now : DateTime) (key : Str) (tier : UInt8) (body : VaultBody) :
    Result VaultBody := do
  validateTier tier
  modifyEntry key (fun entry => .ok { entry with tier, updatedAt := toRfc3339 now }) body

/-! ## What the operations do -/

theorem storedEntry_eq_ok {now : DateTime} {existing : Option BodyEntry} {value : Str}
    {tier : UInt8} {entry : BodyEntry} (h : storedEntry now existing value tier = .ok entry) :
    entry.value = value ∧ entry.tier = tier := by
  cases existing with
  | none => simp [storedEntry] at h; simp [← h]
  | some existing =>
    simp only [storedEntry, result_bind_eq_ok] at h
    obtain ⟨due, _, h⟩ := h
    cases h
    exact ⟨rfl, rfl⟩

/-- What a successful `set` did. -/
theorem setEntry_eq_ok {now : DateTime} {key value : Str} {tier : UInt8} {body body' : VaultBody}
    (h : setEntry now key value tier body = .ok body') :
    TierInRange tier ∧ ∃ entry, storedEntry now body[key]? value tier = .ok entry ∧
      body' = body.insert key entry := by
  simp only [setEntry, result_bind_eq_ok] at h
  obtain ⟨_, htier, entry, hentry, h⟩ := h
  cases h
  exact ⟨validateTier_eq_ok.mp htier, entry, hentry, rfl⟩

/-- What a successful change in place did. -/
theorem modifyEntry_eq_ok {key : Str} {f : BodyEntry → Result BodyEntry} {body body' : VaultBody}
    (h : modifyEntry key f body = .ok body') :
    ∃ old new, body[key]? = some old ∧ f old = .ok new ∧ body' = body.insert key new := by
  unfold modifyEntry at h
  cases hold : body[key]? with
  | none => simp [hold, bail] at h
  | some old =>
    simp only [hold, result_bind_eq_ok] at h
    obtain ⟨new, hnew, h⟩ := h
    cases h
    exact ⟨old, new, rfl, hnew, rfl⟩

/-- What a successful `retier` did. -/
theorem retierEntry_eq_ok {now : DateTime} {key : Str} {tier : UInt8} {body body' : VaultBody}
    (h : retierEntry now key tier body = .ok body') :
    TierInRange tier ∧ ∃ old, body[key]? = some old ∧
      body' = body.insert key { old with tier, updatedAt := toRfc3339 now } := by
  simp only [retierEntry, result_bind_eq_ok] at h
  obtain ⟨_, htier, h⟩ := h
  obtain ⟨old, new, hold, hnew, rfl⟩ := modifyEntry_eq_ok h
  cases hnew
  exact ⟨validateTier_eq_ok.mp htier, old, hold, rfl⟩

/-- What a successful `rename` did. -/
theorem renameEntry_eq_ok {source target : Str} {body body' : VaultBody}
    (h : renameEntry source target body = .ok body') :
    body' = body ∨ ∃ entry, source ≠ target ∧ body[source]? = some entry ∧ body[target]? = none ∧
      body' = (body.erase source).insert target entry := by
  unfold renameEntry at h
  split at h
  · cases h
    exact .inl rfl
  · rename_i hne
    cases hsource : body[source]? with
    | none => simp [hsource, bail] at h
    | some entry =>
      cases htarget : body[target]? with
      | some old => simp [hsource, VaultBody.has, htarget, bail] at h
      | none =>
        simp [hsource, VaultBody.has, htarget] at h
        exact .inr ⟨entry, hne, rfl, rfl, h.symm⟩

/-! ## The tiers stay in range -/

section TiersInRange

variable {body body' : VaultBody} (hbody : body.TiersInRange)

include hbody

theorem VaultBody.TiersInRange.insert {key : Str} {entry : BodyEntry}
    (h : TierInRange entry.tier) : VaultBody.TiersInRange (body.insert key entry) := by
  intro k e hk
  rw [Std.ExtTreeMap.getElem?_insert] at hk
  split at hk
  · cases hk
    exact h
  · exact hbody k e hk

theorem VaultBody.TiersInRange.erase (key : Str) :
    VaultBody.TiersInRange (body.erase key) := by
  intro k e hk
  rw [Std.ExtTreeMap.getElem?_erase] at hk
  split at hk
  · cases hk
  · exact hbody k e hk

theorem setEntry_tiersInRange {now : DateTime} {key value : Str} {tier : UInt8}
    (h : setEntry now key value tier body = .ok body') : body'.TiersInRange := by
  obtain ⟨htier, entry, hentry, rfl⟩ := setEntry_eq_ok h
  exact hbody.insert ((storedEntry_eq_ok hentry).2 ▸ htier)

theorem modifyEntry_tiersInRange {key : Str} {f : BodyEntry → Result BodyEntry}
    (hf : ∀ old new, f old = .ok new → new.tier = old.tier)
    (h : modifyEntry key f body = .ok body') : body'.TiersInRange := by
  obtain ⟨old, new, hold, hnew, rfl⟩ := modifyEntry_eq_ok h
  exact hbody.insert (hf old new hnew ▸ hbody key old hold)

theorem renameEntry_tiersInRange {source target : Str}
    (h : renameEntry source target body = .ok body') : body'.TiersInRange := by
  obtain rfl | ⟨entry, _, hentry, _, rfl⟩ := renameEntry_eq_ok h
  · exact hbody
  · exact (hbody.erase source).insert (hbody source entry hentry)

theorem retierEntry_tiersInRange {now : DateTime} {key : Str} {tier : UInt8}
    (h : retierEntry now key tier body = .ok body') : body'.TiersInRange := by
  obtain ⟨htier, old, _, rfl⟩ := retierEntry_eq_ok h
  exact hbody.insert htier

end TiersInRange

end HearthVault
