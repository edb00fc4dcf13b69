/-
HearthVault.Cli.StoringTimes — the loops that store values, at suitable times.

A loop fails when a due date runs over the calendar, so what it stores it
stores at some times and not at others. Each loop ends with a body at some
readings of the clock, with an entry that carries another time than the vault
file has for it: the body is then not what it was (`Retimed.ne`).

The readings are chosen so that the due date is no later than the first second
of the epoch: `dueFrom_some` counts the days back from one of two seconds, of
which at least one makes a text that the entry does not have. Each loop then
collects its readings by induction, one for every entry it stores, and
`Fx.Timed` says that at these readings the program does nothing else.
-/
import HearthVault.Cli.Storing

namespace HearthVault

open Files Symbolic Calendar Bindings

/-! ## Loops at suitable times -/

/-- There is a time at which a due date can be counted from, and it can be
told from any given text. -/
theorem dueFrom_some (days : Option UInt32) (text : Str) :
    ∃ now due, dueFrom now days = .ok due ∧ toRfc3339 now ≠ text := by
  obtain ⟨n, hn⟩ : ∃ n : Int, n = ↑((days.map UInt32.toNat).getD 0) := ⟨_, rfl⟩
  have hok : ∀ s : Int, 0 ≤ s → s ≤ nanosPerSecond →
      ∃ due, dueFrom (-n * nanosPerDay + s) days = .ok due := by
    intro s hs hs'
    cases days with
    | none => exact ⟨none, rfl⟩
    | some days =>
      have hlt : days.toNat < 4294967296 := days.toNat_lt
      have hbound : ¬((days.toNat : Int) * 86400000).natAbs > 9223372036854775807 := by omega
      have hn' : n = days.toNat := hn
      have hdue : -n * nanosPerDay + s + (days.toNat : Int) * nanosPerDay = s := by
        rw [hn', Int.neg_mul]
        omega
      have hrange : ¬(s < minUtc ∨ maxUtc < s) :=
        not_or.mpr ⟨not_lt.mpr (le_trans (by decide) hs), not_lt.mpr (le_trans hs' (by decide))⟩
      refine ⟨some (toRfc3339 s), ?_⟩
      simp only [dueFrom, addDays, if_neg hbound, hdue, if_neg hrange]
      rfl
  obtain ⟨due, hdue⟩ := hok 0 le_rfl (by decide)
  obtain ⟨due', hdue'⟩ := hok nanosPerSecond (by decide) le_rfl
  rw [add_zero] at hdue
  by_cases htext : toRfc3339 (-n * nanosPerDay) = text
  · exact ⟨_, due', hdue', fun h => toRfc3339_midnight (-n) (htext.trans h.symm)⟩
  · exact ⟨_, due, hdue, htext⟩

/-- Some entry carries another time than it did. -/
def Retimed (old body : VaultBody) : Prop :=
  ∃ (key : Str) (entry : BodyEntry), body[key]? = some entry ∧
    ∀ entry', old[key]? = some entry' → entry.updatedAt ≠ entry'.updatedAt

/-- A body that was retimed has changed. -/
theorem Retimed.ne {old body : VaultBody} (h : Retimed old body) : body ≠ old := by
  rintro rfl
  obtain ⟨key, entry, hentry, hne⟩ := h
  exact hne entry hentry rfl

/-- An entry can be stored with a time that the vault does not have for its key. -/
theorem storedEntry_timed (old : VaultBody) (existing : Option BodyEntry) (key value : Str)
    (tier : UInt8) : ∃ now entry, storedEntry now existing value tier = .ok entry ∧
      ∀ entry', old[key]? = some entry' → entry.updatedAt ≠ entry'.updatedAt := by
  obtain ⟨now, due, hdue, hne⟩ := dueFrom_some (existing.bind BodyEntry.rotateDays)
    ((old[key]?.map BodyEntry.updatedAt).getD [])
  have hnew : ∀ entry', old[key]? = some entry' → toRfc3339 now ≠ entry'.updatedAt := by
    intro entry' hentry'
    rw [hentry'] at hne
    exact hne
  cases existing with
  | none => exact ⟨now, ⟨value, tier, toRfc3339 now, toRfc3339 now, none, none⟩, rfl, hnew⟩
  | some existing =>
    refine ⟨now, ⟨value, tier, existing.createdAt, toRfc3339 now, existing.rotateDays, due⟩, ?_,
      hnew⟩
    rw [storedEntry, show dueFrom now existing.rotateDays = .ok due from hdue]
    rfl

/-- A change in place of an entry that keeps its value, tier and time. -/
theorem modifyEntry_timed {old body : VaultBody} {key : Str} {f : BodyEntry → Result BodyEntry}
    (hf : ∀ entry, ∃ entry', f entry = .ok entry' ∧ entry'.updatedAt = entry.updatedAt)
    (hkeeps : ∀ entry entry', f entry = .ok entry' →
      entry'.value = entry.value ∧ entry'.tier = entry.tier)
    (hold : Retimed old body) (hkey : body.has key = true) :
    ∃ body', modifyEntry key f body = .ok body' ∧ VaultBody.view body' = body.view ∧
      Retimed old body' ∧ body'.has key = true := by
  obtain ⟨entry, hentry⟩ := Option.isSome_iff_exists.mp hkey
  obtain ⟨entry', hf', htime⟩ := hf entry
  have hmodify : modifyEntry key f body = .ok (body.insert key entry') := by
    rw [modifyEntry, hentry]
    dsimp only
    rw [hf']
    rfl
  refine ⟨body.insert key entry', hmodify, view_modifyEntry hkeeps hmodify, ?_,
    by simp [VaultBody.has]⟩
  obtain ⟨k, e, he, hne⟩ := hold
  by_cases hk : key = k
  · refine ⟨k, entry', by simp [hk], fun e' he' => ?_⟩
    rw [hk, he] at hentry
    cases hentry
    rw [htime]
    exact hne e' he'
  · exact ⟨k, e, by rw [Std.ExtTreeMap.getElem?_insert, if_neg (by simpa using hk), he], hne⟩

section Timed

variable {body : VaultBody}

/-- A body operation that reads the clock once. -/
theorem onBody_timed {now : DateTime} {f : DateTime → VaultBody → Result VaultBody}
    {body' : VaultBody} (h : f now body = .ok body') {store : VaultStore}
    (hstore : store.body = body) :
    Fx.Timed [now] (do let now ← Fx.now; Fx.ofResult (store.onBody (f now)) : Prog VaultStore)
      { store with body := body' } := by
  refine Fx.Timed.bind (Fx.Timed.now now) (Fx.Timed.ofResult ?_)
  rw [VaultStore.onBody, hstore, h]
  rfl

/-- Any value can be set at some time. -/
theorem set_timed (old : VaultBody) (key value : Str) {tier : UInt8} (h : TierInRange tier) :
    ∃ now body', (∀ store : VaultStore, store.body = body →
        Fx.Timed [now] (store.set key value tier) { store with body := body' }) ∧
      VaultBody.view body' = put body.view (key, value, tier) ∧ Retimed old body' ∧
      body'.has key = true := by
  obtain ⟨now, entry, hentry, hne⟩ := storedEntry_timed old body[key]? key value tier
  -- the tier is in range and the due date can be counted
  have hset : setEntry now key value tier body = .ok (body.insert key entry) := by
    rw [setEntry, validateTier_eq_ok.mpr h, hentry]
    rfl
  exact ⟨now, body.insert key entry, fun store hstore => onBody_timed hset hstore,
    view_setEntry hset, ⟨key, entry, by simp, hne⟩, by simp [VaultBody.has]⟩

/-- The loop of `import-env`, by induction on the pairs: what is skipped takes
no reading of the clock, what is stored takes one. -/
theorem importPairs_timed (old : VaultBody) {pre : Str} {tier : UInt8} {force : Bool}
    {pairs : List (Str × Str)}
    (h : ∀ i ∈ taken force body.view (importItems pre tier pairs), TierInRange i.2.2) :
    ∃ times body' expected, (∀ store : VaultStore, store.body = body →
        Fx.Timed times (importPairs pre tier force pairs store)
          ({ store with body := body' }, expected)) ∧
      (taken force body.view (importItems pre tier pairs) = [] ∧ body' = body ∨
        Retimed old body') := by
  induction pairs generalizing body with
  | nil =>
    refine ⟨[], body, [], fun store hstore => ?_, .inl ⟨?_, rfl⟩⟩
    · subst hstore
      exact Fx.Timed.pure
    · cases force <;> rfl
  | cons pair rest ih =>
    obtain ⟨name, value⟩ := pair
    by_cases hskip : Skipped force body (pre ++ name) value
    · rw [taken_importItems_skip hskip] at h ⊢
      obtain ⟨times, body', expected, hloop, hend⟩ := ih h
      refine ⟨times, body', expected, fun store hstore => ?_, hend⟩
      unfold importPairs
      dsimp only
      rw [if_pos (hstore ▸ hskip)]
      exact hloop store hstore
    · rw [taken_importItems_cons hskip] at h ⊢
      obtain ⟨now, body₁, hset, hview, hretimed, -⟩ := @set_timed body old (pre ++ name) value tier
        (h _ List.mem_cons_self)
      obtain ⟨times, body', expected, hloop, hend⟩ := @ih body₁ fun i hi =>
        h i (List.mem_cons_of_mem _ (hview ▸ hi))
      refine ⟨[now] ++ (times ++ []), body', (pre ++ name, value) :: expected,
        fun store hstore => ?_, .inr ?_⟩
      · unfold importPairs
        dsimp only
        rw [if_neg (hstore ▸ hskip)]
        exact (hset store hstore).bind ((hloop { store with body := body₁ } rfl).bind Fx.Timed.pure)
      · obtain ⟨-, rfl⟩ | hend := hend
        · exact hretimed
        · exact hend

/-- The loop of `receive`, in the same way on the entries of the bundle. -/
theorem receiveAll_timed (old : VaultBody) {pre : Option Str} {force : Bool}
    {entries : List SharedEntry}
    (h : ∀ i ∈ taken force body.view (receivedItems pre entries), TierInRange i.2.2) :
    ∃ times body' stored, (∀ store : VaultStore, store.body = body →
        Fx.Timed times (receiveAll pre force entries store)
          ({ store with body := body' }, stored)) ∧
      (taken force body.view (receivedItems pre entries) = [] ∧ body' = body ∨
        Retimed old body') := by
  induction entries generalizing body with
  | nil =>
    refine ⟨[], body, [], fun store hstore => ?_, .inl ⟨?_, rfl⟩⟩
    · subst hstore
      exact Fx.Timed.pure
    · cases force <;> rfl
  | cons entry rest ih =>
    have hitems : receivedItems pre (entry :: rest) =
        (receivedName pre entry.key, entry.value, entry.tier) :: receivedItems pre rest := rfl
    by_cases hskip : body.has (receivedName pre entry.key) = true ∧ (!force) = true
    · obtain ⟨hhas, rfl⟩ : body.has (receivedName pre entry.key) = true ∧ force = false := by
        simpa using hskip
      rw [hitems, taken_of_bound (by rw [VaultBody.isSome_view, hhas])] at h ⊢
      obtain ⟨times, body', stored, hloop, hend⟩ := ih h
      refine ⟨times, body', stored, fun store hstore => ?_, hend⟩
      unfold receiveAll
      dsimp only
      rw [if_pos (hstore ▸ hskip)]
      exact hloop store hstore
    · rw [hitems, taken_cons (by rwa [VaultBody.isSome_view])] at h ⊢
      obtain ⟨now, body₁, hset, hview, hretimed, -⟩ := @set_timed body old
        (receivedName pre entry.key) entry.value entry.tier (h _ List.mem_cons_self)
      obtain ⟨times, body', stored, hloop, hend⟩ := @ih body₁ fun i hi =>
        h i (List.mem_cons_of_mem _ (hview ▸ hi))
      refine ⟨[now] ++ (times ++ []), body', (receivedName pre entry.key, entry.value) :: stored,
        fun store hstore => ?_, .inr ?_⟩
      · unfold receiveAll
        dsimp only
        rw [if_neg (hstore ▸ hskip)]
        exact (hset store hstore).bind ((hloop { store with body := body₁ } rfl).bind Fx.Timed.pure)
      · obtain ⟨-, rfl⟩ | hend := hend
        · exact hretimed
        · exact hend

/-- A new policy needs a due date that can be counted, and leaves value, tier
and time. -/
theorem applyRotation_timed {old : VaultBody} (days : Option UInt32) {key : Str}
    (hold : Retimed old body) (hkey : body.has key = true) :
    ∃ times body', (∀ store : VaultStore, store.body = body →
        Fx.Timed times (applyRotation days key store) { store with body := body' }) ∧
      VaultBody.view body' = body.view ∧ Retimed old body' ∧ body'.has key = true := by
  cases days with
  | none =>
    refine ⟨[], body, fun store hstore => ?_, rfl, hold, hkey⟩
    subst hstore
    exact Fx.Timed.pure
  | some days =>
    obtain ⟨now, due, hdue, -⟩ := dueFrom_some (if days = 0 then none else some days) []
    obtain ⟨body', hbody, hafter⟩ := @modifyEntry_timed old body key
      (fun entry => do
        let expiresAt ← dueFrom now (if days = 0 then none else some days)
        .ok { entry with rotateDays := if days = 0 then none else some days, expiresAt })
      (fun entry =>
        ⟨{ entry with rotateDays := if days = 0 then none else some days, expiresAt := due },
        by rw [hdue]; rfl, rfl⟩)
      (fun entry entry' h => by rw [hdue] at h; cases h; exact ⟨rfl, rfl⟩) hold hkey
    exact ⟨[now], body', fun store hstore => onBody_timed hbody hstore, hafter⟩

/-- A due date is stored as it stands, at any time. -/
theorem applyExpiry_timed {old : VaultBody} (due : Option Str) {key : Str}
    (hold : Retimed old body) (hkey : body.has key = true) :
    ∃ body', (∀ store : VaultStore, store.body = body →
        Fx.Timed [] (applyExpiry due key store) { store with body := body' }) ∧
      VaultBody.view body' = body.view ∧ Retimed old body' := by
  cases due with
  | none =>
    refine ⟨body, fun store hstore => ?_, rfl, hold⟩
    subst hstore
    exact Fx.Timed.pure
  | some due =>
    obtain ⟨body', hbody, hview, hretimed, -⟩ := @modifyEntry_timed old body key
      (fun entry => .ok { entry with expiresAt := some due }) (fun entry => ⟨_, rfl, rfl⟩)
      (fun entry entry' h => by cases h; exact ⟨rfl, rfl⟩) hold hkey
    refine ⟨body', fun store hstore => Fx.Timed.ofResult ?_, hview, hretimed⟩
    rw [VaultStore.onBody, setExpiry, hstore, hbody]
    rfl

/-- The loop of `set`: for each pair a value, a policy and a due date. -/
theorem setAll_timed (old : VaultBody) {tier : Option UInt8} {days : Option UInt32}
    {due : Option Str} {pairs : List (Str × Str)}
    (h : ∀ i ∈ setItems tier body.view pairs, TierInRange i.2.2) :
    ∃ times body', (∀ store : VaultStore, store.body = body →
        Fx.Timed times (setAll tier days due pairs store) { store with body := body' }) ∧
      (pairs = [] ∧ body' = body ∨ Retimed old body') := by
  induction pairs generalizing body with
  | nil =>
    refine ⟨[], body, fun store hstore => ?_, .inl ⟨rfl, rfl⟩⟩
    subst hstore
    exact Fx.Timed.pure
  | cons pair rest ih =>
    obtain ⟨key, value⟩ := pair
    have htier : (tier.or (body.tierOf key)).getD tierUseOnly = setTier tier body.view key := by
      rw [setTier, VaultBody.tierOf_eq_view]
    obtain ⟨now, body₁, hset, hview₁, hretimed₁, hhas₁⟩ := @set_timed body old key value
      (setTier tier body.view key) (h _ List.mem_cons_self)
    obtain ⟨times₂, body₂, hrotate, hview₂, hretimed₂, hhas₂⟩ :=
      applyRotation_timed days hretimed₁ hhas₁
    obtain ⟨body₃, hexpire, hview₃, hretimed₃⟩ := applyExpiry_timed due hretimed₂ hhas₂
    -- neither policy nor due date touches what the rest of the pairs depends
    -- on
    have hitems : setItems tier (VaultBody.view body₃) rest = setItems tier body.view rest := by
      rw [hview₃, hview₂, hview₁]
      simp only [setItems, setTier_put]
    have hrest : ∀ i ∈ setItems tier (VaultBody.view body₃) rest, TierInRange i.2.2 := by
      rw [hitems]
      exact fun i hi => h i (List.mem_cons_of_mem _ hi)
    obtain ⟨times, body', hloop, hend⟩ := ih hrest
    refine ⟨[now] ++ (times₂ ++ ([] ++ times)), body', fun store hstore => ?_, .inr ?_⟩
    · unfold setAll
      dsimp only
      rw [hstore, htier]
      exact (hset store hstore).bind ((hrotate { store with body := body₁ } rfl).bind
        ((hexpire { store with body := body₂ } rfl).bind (hloop { store with body := body₃ } rfl)))
    · obtain ⟨-, rfl⟩ | hend := hend
      · exact hretimed₃
      · exact hend

end Timed

end HearthVault
