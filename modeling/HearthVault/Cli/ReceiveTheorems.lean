/-
HearthVault.Cli.ReceiveTheorems — which entries of a bundle `receive` keeps.

With `--prefix` an entry is stored under the last segment of its key, so two
entries of one bundle may have one target. Without `--force` the second of
them is then skipped as if it had been in the vault before, and with `--force`
it replaces the first, after which the verification fails. `received_iff`
says that apart from this, and from a due date that runs over the calendar,
nothing gets lost.

The loop is described from both sides: what it stores is a list of bindings
(`Cli.Storing`), what it skips is another (`receiveSkipped`), and it succeeds
where every date in between can be counted (`Dated`, `receiveAll_iff`). All
three depend on the entries before an entry, so each is an induction on the
bundle; `KeepsAll` collects what has to hold of it for nothing to be lost.
-/
import HearthVault.Cli.TransferRuns
import HearthVault.Store.Outcomes

namespace HearthVault

open Files Symbolic Calendar Bindings

/-! ## What the loop does to other keys -/

/-- The rotation policy of a key. -/
def VaultBody.policy (body : VaultBody) (key : Str) : Option UInt32 :=
  body[key]?.bind BodyEntry.rotateDays

theorem storedEntry_iff {now : DateTime} {existing : Option BodyEntry} {value : Str}
    {tier : UInt8} :
    (∃ entry, storedEntry now existing value tier = .ok entry) ↔
      ∃ due, dueFrom now (existing.bind BodyEntry.rotateDays) = .ok due := by
  cases existing with
  | none => exact ⟨fun _ => ⟨none, rfl⟩, fun _ => ⟨_, rfl⟩⟩
  | some existing => simp [storedEntry]

theorem storedEntry_rotateDays {now : DateTime} {existing : Option BodyEntry} {value : Str}
    {tier : UInt8} {entry : BodyEntry} (h : storedEntry now existing value tier = .ok entry) :
    entry.rotateDays = existing.bind BodyEntry.rotateDays := by
  cases existing with
  | none =>
    cases h
    rfl
  | some existing =>
    simp only [storedEntry, result_bind_eq_ok] at h
    obtain ⟨due, -, h⟩ := h
    cases h
    rfl

theorem set_run (m : Machine) (w : Disk) (store : VaultStore) (key value : Str) (tier : UInt8) :
    (store.set key value tier).run m w =
      ((setEntry (m.clock w.ticks) key value tier store.body).map fun body => { store with body },
        { w with ticks := w.ticks + 1 }) := by
  rw [VaultStore.set, Fx.bind_run_ok (Fx.now_run m w), Fx.ofResult_run, VaultStore.onBody]
  cases setEntry (m.clock w.ticks) key value tier store.body <;> rfl

/-- A value is set: the policies and the other keys are as they were. -/
structure Setting (m : Machine) (w : Disk) (store : VaultStore) (key : Str) (store' : VaultStore)
    (w' : Disk) : Prop where
  ticks : w'.ticks = w.ticks + 1
  policy : store'.body.policy = store.body.policy
  others : ∀ k ≠ key, store'.body[k]? = store.body[k]?
  has : store'.body.has = fun k => k = key || store.body.has k
  dated : ∃ due, dueFrom (m.clock w.ticks) (store.body.policy key) = .ok due

section

variable {m : Machine} {w w' : Disk} {store store' : VaultStore} {key value : Str} {tier : UInt8}

theorem set_setting (h : (store.set key value tier).run m w = (.ok store', w')) :
    Setting m w store key store' w' := by
  rw [set_run] at h
  obtain ⟨hset, rfl⟩ := Prod.mk.inj h
  cases hentry : setEntry (m.clock w.ticks) key value tier store.body with
  | error e =>
    rw [hentry] at hset
    cases hset
  | ok body =>
    rw [hentry] at hset
    cases hset
    obtain ⟨-, entry, hstored, rfl⟩ := setEntry_eq_ok hentry
    have hothers : ∀ k ≠ key, (store.body.insert key entry)[k]? = store.body[k]? := by
      intro k hk
      rw [Std.ExtTreeMap.getElem?_insert, if_neg (by simpa using hk.symm)]
    refine ⟨rfl, ?_, hothers, ?_, storedEntry_iff.mp ⟨entry, hstored⟩⟩
    · funext k
      by_cases hk : k = key
      · simp [VaultBody.policy, hk, storedEntry_rotateDays hstored]
      · simp only [VaultBody.policy, hothers k hk]
    · funext k
      by_cases hk : k = key
      · simp [VaultBody.has, hk]
      · simp only [VaultBody.has, hothers k hk, hk, decide_false, Bool.false_or]

/-- A value can be set when a due date can be counted from now. -/
theorem set_runs (htier : TierInRange tier) {due : Option Str}
    (h : dueFrom (m.clock w.ticks) (store.body.policy key) = .ok due) :
    ∃ store' w', (store.set key value tier).run m w = (.ok store', w') := by
  obtain ⟨entry, hentry⟩ := @storedEntry_iff _ _ value tier |>.mpr ⟨due, h⟩
  rw [set_run, setEntry, validateTier_eq_ok.mpr htier, hentry]
  exact ⟨_, _, rfl⟩

end

/-! ## The loop -/

/-- The keys that the loop of `cmd_receive` pushes on `skipped`. -/
def receiveSkipped (pre : Option Str) (force : Bool) : List SharedEntry → (Str → Bool) → List Str
  | [], _ => []
  | entry :: rest, has =>
    let key := receivedName pre entry.key
    if has key ∧ !force then key :: receiveSkipped pre force rest has
    else receiveSkipped pre force rest fun k => k = key || has k

/-- Where a due date runs over the calendar, the loop fails. -/
def Dated (m : Machine) (ticks : Nat) (body : VaultBody) (pre : Option Str)
    (entries : List SharedEntry) : Prop :=
  ∀ (i : Nat) (entry : SharedEntry), entries[i]? = some entry →
    ∃ due, dueFrom (m.clock (ticks + i)) (body.policy (receivedName pre entry.key)) = .ok due

theorem Dated.cons_iff {m : Machine} {ticks : Nat} {body : VaultBody} {pre : Option Str}
    {entry : SharedEntry} {rest : List SharedEntry} : Dated m ticks body pre (entry :: rest) ↔
      (∃ due, dueFrom (m.clock ticks) (body.policy (receivedName pre entry.key)) = .ok due) ∧
        Dated m (ticks + 1) body pre rest := by
  constructor
  · intro h
    refine ⟨h 0 entry rfl, fun i e he => ?_⟩
    rw [Nat.add_right_comm]
    exact h (i + 1) e he
  · rintro ⟨hfirst, hrest⟩ i e he
    cases i with
    | zero =>
      cases he
      exact hfirst
    | succ i =>
      rw [← Nat.add_assoc, Nat.add_right_comm]
      exact hrest i e he

section

variable {m : Machine} {w w' : Disk} {store store' : VaultStore} {pre : Option Str} {force : Bool}
  {entries : List SharedEntry} {stored : List (Str × Str)}

theorem receiveAll_others
    (h : (receiveAll pre force entries store).run m w = (.ok (store', stored), w')) {k : Str}
    (hk : ∀ e ∈ entries, receivedName pre e.key ≠ k) : store'.body[k]? = store.body[k]? := by
  induction entries generalizing store w stored with
  | nil =>
    cases h
    rfl
  | cons entry rest ih =>
    unfold receiveAll at h
    dsimp only at h
    obtain ⟨hkey, hrest⟩ := List.forall_mem_cons.mp hk
    split at h
    · exact ih h hrest
    · obtain ⟨store₁, w₁, hset, h⟩ := Fx.bind_eq_ok.mp h
      obtain ⟨⟨store₂, stored₂⟩, w₂, hloop, h⟩ := Fx.bind_eq_ok.mp h
      cases h
      rw [ih hloop hrest, (set_setting hset).others k hkey.symm]

/-- The loop gets to its end when every value can be set. -/
theorem receiveAll_iff (htiers : ∀ e ∈ entries, TierInRange e.tier) :
    (∃ r w', (receiveAll pre force entries store).run m w = (.ok r, w')) ↔
      (force = true → Dated m w.ticks store.body pre entries) := by
  induction entries generalizing store w with
  | nil => exact ⟨fun _ _ => by simp [Dated], fun _ => ⟨_, _, rfl⟩⟩
  | cons entry rest ih =>
    obtain ⟨htier, hrest⟩ := List.forall_mem_cons.mp htiers
    unfold receiveAll
    dsimp only
    by_cases hskip : store.body.has (receivedName pre entry.key) = true ∧ (!force) = true
    · obtain rfl : force = false := by simpa using hskip.2
      rw [if_pos hskip, ih hrest]
      simp
    · rw [if_neg hskip]
      constructor
      · rintro ⟨r, w', h⟩ hforce
        obtain ⟨store₁, w₁, hset, h⟩ := Fx.bind_eq_ok.mp h
        obtain ⟨r', w₂, hloop, -⟩ := Fx.bind_eq_ok.mp h
        have hsetting := set_setting hset
        have hdated := (ih hrest).mp ⟨r', w₂, hloop⟩ hforce
        rw [Dated, hsetting.ticks, hsetting.policy] at hdated
        exact Dated.cons_iff.mpr ⟨hsetting.dated, hdated⟩
      · intro hdated
        have hdue : ∃ due, dueFrom (m.clock w.ticks)
            (store.body.policy (receivedName pre entry.key)) = .ok due := by
          cases force with
          | true => exact (Dated.cons_iff.mp (hdated rfl)).1
          | false =>
            -- A key that is not there has no policy.
            have hnone : store.body[receivedName pre entry.key]? = none := by
              simpa [VaultBody.has] using hskip
            exact ⟨none, by rw [VaultBody.policy, hnone]; rfl⟩
        obtain ⟨due, hdue⟩ := hdue
        obtain ⟨store₁, w₁, hset⟩ := @set_runs m w store _ entry.value _ htier due hdue
        have hsetting := set_setting hset
        obtain ⟨⟨store₂, stored₂⟩, w₂, hloop⟩ := (ih hrest).mpr fun hforce => by
          rw [Dated, hsetting.ticks, hsetting.policy]
          exact (Dated.cons_iff.mp (hdated hforce)).2
        exact ⟨_, _, by rw [Fx.bind_run_ok hset, Fx.bind_run_ok hloop]; rfl⟩

theorem receiveSkipped_forced (has : Str → Bool) : receiveSkipped pre true entries has = [] := by
  induction entries generalizing has with
  | nil => rfl
  | cons entry rest ih => simp [receiveSkipped, ih]

theorem receiveSkipped_eq (v : Str → Option (Str × UInt8)) :
    receiveSkipped pre false entries (fun k => (v k).isSome) =
      (passed v (receivedItems pre entries)).map Prod.fst := by
  induction entries generalizing v with
  | nil => rfl
  | cons entry rest ih =>
    have hitems : receivedItems pre (entry :: rest) =
        (receivedName pre entry.key, entry.value, entry.tier) :: receivedItems pre rest := rfl
    rw [receiveSkipped, hitems, passed]
    by_cases hbound : (v (receivedName pre entry.key)).isSome = true
    · simp [hbound, ih]
    · have hput : (fun k => k = receivedName pre entry.key || (v k).isSome) = fun k =>
          (put v (receivedName pre entry.key, entry.value, entry.tier) k).isSome := by
        funext k
        by_cases hk : k = receivedName pre entry.key
        · simp [hk]
        · simp [hk, put_of_ne]
      simp only [hbound, hput, ih]
      simp

theorem mem_receiveSkipped {has : Str → Bool} {entry : SharedEntry} (he : entry ∈ entries)
    (hhas : has (receivedName pre entry.key) = true) :
    receivedName pre entry.key ∈ receiveSkipped pre false entries has := by
  induction entries generalizing has with
  | nil => cases he
  | cons first rest ih =>
    unfold receiveSkipped
    dsimp only
    obtain rfl | he := List.mem_cons.mp he
    · rw [if_pos ⟨hhas, rfl⟩]
      exact .head _
    · split
      · exact .tail _ (ih he hhas)
      · exact ih he (by simp [hhas])

/-- Two entries for one key that was not there: the second is skipped. -/
theorem receiveSkipped_iff (body : VaultBody) :
    (∀ key ∈ receiveSkipped pre force entries body.has, force = false ∧ body.has key = true) ↔
      (force = false → entries.Pairwise fun e e' =>
        receivedName pre e.key = receivedName pre e'.key →
          body.has (receivedName pre e.key) = true) := by
  cases force with
  | true =>
    rw [receiveSkipped_forced]
    exact ⟨fun _ => nofun, fun _ => nofun⟩
  | false =>
    have hhas : body.has = fun k => (body.view k).isSome := by
      funext k
      rw [VaultBody.isSome_view]
    rw [hhas, receiveSkipped_eq]
    simp only [List.forall_mem_map, true_and, forall_const, passed_isSome_iff]
    rw [receivedItems, List.pairwise_map]
    exact and_iff_right fun _ _ h => h

end

/-! ## Nothing gets lost -/

/-- What a receiver may expect: the vault file, `c` afterwards, has every entry
of the bundle but those for keys that were there before. -/
structure Received (body : VaultBody) (pre : Option Str) (force : Bool) (entries : List SharedEntry)
    (r : Result Unit) (c : Option Contents) : Prop where
  succeeds : r = .ok ()
  skips : ∀ key ∈ receiveSkipped pre force entries body.has, force = false ∧ body.has key = true
  stores : ∃ body', Entries c body' ∧
    (∀ e ∈ entries, receivedName pre e.key ∉ receiveSkipped pre force entries body.has →
      body'.view (receivedName pre e.key) = some (e.value, e.tier)) ∧
    ∀ key, (∀ e ∈ entries, receivedName pre e.key ≠ key) → body'[key]? = body[key]?

/-- Two entries for one key are alike, or skipped both; and a policy that is
there does not run over the calendar. -/
structure KeepsAll (m : Machine) (ticks : Nat) (body : VaultBody) (pre : Option Str) (force : Bool)
    (entries : List SharedEntry) : Prop where
  apart : entries.Pairwise fun e e' => receivedName pre e.key = receivedName pre e'.key →
    if force then e.value = e'.value ∧ e.tier = e'.tier
    else body.has (receivedName pre e.key) = true
  dated : force = true → Dated m ticks body pre entries

section

variable {m : Machine} {ticks : Nat} {pre : Option Str} {force : Bool}
  {entries : List SharedEntry} {body : VaultBody}

/-- Under their own keys, which are distinct, entries do not meet. -/
theorem KeepsAll.of_unprefixed (hkeys : (entries.map SharedEntry.key).Nodup)
    (hdated : force = true → Dated m ticks body none entries) :
    KeepsAll m ticks body none force entries := by
  refine ⟨?_, hdated⟩
  rw [List.nodup_iff_pairwise_ne, List.pairwise_map] at hkeys
  exact hkeys.imp fun hne hkey => absurd hkey hne

theorem KeepsAll.agree (h : KeepsAll m ticks body pre force entries) :
    Agree (taken force body.view (receivedItems pre entries)) := by
  cases force with
  | false => exact agree_taken_false _ _
  | true =>
    refine agree_iff_pairwise.mpr (List.pairwise_map.mpr (h.apart.imp fun hpair hkey => ?_))
    obtain ⟨hvalue, htier⟩ := hpair hkey
    exact Prod.ext hvalue htier

theorem KeepsAll.skips (h : KeepsAll m ticks body pre force entries) :
    ∀ key ∈ receiveSkipped pre force entries body.has, force = false ∧ body.has key = true := by
  refine (receiveSkipped_iff body).mpr ?_
  rintro rfl
  exact h.apart.imp fun hpair hkey => hpair hkey

/-- Entries for one key that are all there afterwards are alike. -/
theorem apart_of_stored {body' : VaultBody}
    (hskips : ∀ key ∈ receiveSkipped pre force entries body.has,
      force = false ∧ body.has key = true)
    (hstores : ∀ e ∈ entries, receivedName pre e.key ∉ receiveSkipped pre force entries body.has →
      body'.view (receivedName pre e.key) = some (e.value, e.tier)) :
    entries.Pairwise fun e e' => receivedName pre e.key = receivedName pre e'.key →
      if force then e.value = e'.value ∧ e.tier = e'.tier
      else body.has (receivedName pre e.key) = true := by
  cases force with
  | false =>
    exact ((receiveSkipped_iff body).mp hskips rfl).imp fun hpair hkey => hpair hkey
  | true =>
    simp only [receiveSkipped_forced, List.not_mem_nil, not_false_iff, forall_const] at hstores
    refine List.pairwise_of_forall_mem_list fun e he e' he' hkey => ?_
    have hview := hstores e he
    rw [hkey, hstores e' he'] at hview
    obtain ⟨hvalue, htier⟩ := Prod.mk.inj (Option.some.inj hview)
    exact ⟨hvalue.symm, htier.symm⟩

/-- What is there under the key of an entry, once the bindings are written. -/
theorem KeepsAll.view (h : KeepsAll m ticks body pre force entries) {entry : SharedEntry}
    (he : entry ∈ entries) (hnew : force = false → body.has (receivedName pre entry.key) = false) :
    putAll body.view (taken force body.view (receivedItems pre entries))
      (receivedName pre entry.key) = some (entry.value, entry.tier) := by
  have hmem : (receivedName pre entry.key, entry.value, entry.tier) ∈ receivedItems pre entries :=
    List.mem_map.mpr ⟨entry, he, rfl⟩
  cases force with
  | true =>
    rw [putAll_apply, agree_iff.mp h.agree _ hmem]
    rfl
  | false =>
    have hpairs : (receivedItems pre entries).Pairwise fun b b' =>
        b.1 = b'.1 → body.has b.1 = true :=
      List.pairwise_map.mpr (h.apart.imp fun hpair hkey => hpair hkey)
    have hfree : body.view (receivedName pre entry.key) = none := by
      rw [← Option.not_isSome_iff_eq_none, VaultBody.isSome_view, hnew rfl]
      simp
    have hfirst : first (receivedItems pre entries) (receivedName pre entry.key) =
        some (entry.value, entry.tier) :=
      first_of_pairwise (P := fun k => body.has k = true) hpairs hmem (by simp [hnew rfl])
    rw [putAll_taken, hfree, hfirst]
    rfl

end

section

variable {m : Machine} {path : Path} {w v : Disk} {unlock : Unlock} {file : Path}
  {pre : Option Str} {force : Bool} {bundle : Bundle} {store : VaultStore} {payload : Payload}

theorem received_iff (hm : m.Faultless) (hfile : w.fs file = some (.bundle bundle))
    (hopen : (openVault path unlock).run m (w.tick (.read file)) = (.ok store, v))
    (hpayload : openBundle bundle store.shareIdentitySeed = .ok payload)
    (htiers : ∀ e ∈ payload.entries, TierInRange e.tier) :
    Received store.body pre force payload.entries
        ((cmdReceive path unlock file false pre force).run m w).1
        (((cmdReceive path unlock file false pre force).run m w).2.fs path) ↔
      KeepsAll m w.ticks store.body pre force payload.entries := by
  have hopens : Opening path (w.tick (.read file)) (unlock.Opens path (w.fs path))
      ((openVault path unlock).run m (w.tick (.read file))) := openVault_opens hm unlock
  have hticks : ((openVault path unlock).run m (w.tick (.read file))).2.ticks = w.ticks :=
    (openVault_footprint subset_rfl unlock).run_ticks
  rw [hopen] at hopens hticks
  obtain ⟨locked, u, -, hbody, hticks', hfails, hends⟩ :=
    @storeReceived_run m path v pre force hm store payload.entries hopens.1
  have hu : u.ticks = w.ticks := hticks'.trans hticks
  rw [cmdReceive_reads hm hfile, Fx.bind_run_ok hopen, hpayload, Fx.ofResult_ok_bind, Fx.when,
    if_pos rfl]
  have hloop_iff := @receiveAll_iff m u locked pre force payload.entries htiers
  rw [hbody, hu] at hloop_iff
  constructor
  · rintro ⟨hok, hskips, body', hentries, hstores, -⟩
    refine ⟨apart_of_stored hskips hstores, hloop_iff.mp ?_⟩
    rcases hloop : (receiveAll pre force payload.entries locked).run m u with ⟨r, u'⟩
    cases r with
    | error e =>
      rw [hfails e u' hloop] at hok
      cases hok
    | ok result => exact ⟨result, u', rfl⟩
  · intro hkeeps
    obtain ⟨⟨store', stored⟩, u', hloop⟩ := hloop_iff.mpr hkeeps.dated
    obtain ⟨msg, z, hsaves, hrun⟩ := hends store' stored u' hloop
    have hagree : Agree (keyValues (taken force store.body.view
        (receivedItems pre payload.entries))) := hkeeps.agree.map Prod.fst
    rw [hrun, if_pos hagree]
    refine ⟨rfl, hkeeps.skips, store'.body, hsaves.after, fun e he hstored => ?_,
      fun key hkey => ?_⟩
    · rw [hsaves.view]
      refine hkeeps.view he fun hforce => ?_
      subst hforce
      by_contra hhas
      exact hstored (mem_receiveSkipped he (by simpa using hhas))
    · rw [receiveAll_others hloop hkey, hbody]

end

/-! ## Two keys with one last segment -/

def bundleJson : Path :=
  ⟨"d".toList, "b.json".toList⟩

/-- A new vault, and a bundle that is addressed to it. -/
def bundleDisk (entries : List SharedEntry) : Disk :=
  (World.single vaultJson (.v2 ((VaultStore.created vaultJson ['a'] 0).toFile 3)) 10).put bundleJson
    (.bundle (sealBundle ⟨(VaultStore.created vaultJson ['a'] 0).shareIdentitySeed⟩
      ⟨entries, none⟩ 8 9))

/-- The new vault, as it is opened. -/
def receivingStore : VaultStore :=
  { VaultStore.created vaultJson ['a'] 0 with
    lock := false, loadedFp := some ⟨.v2 ((VaultStore.created vaultJson ['a'] 0).toFile 3)⟩ }

theorem openVault_bundleDisk (entries : List SharedEntry) : ∃ v,
    (openVault vaultJson ⟨none, none, ['a']⟩).run .quiet
      ((bundleDisk entries).tick (.read bundleJson)) = (.ok receivingStore, v) :=
  ⟨_, rfl⟩

theorem openBundle_bundleDisk (entries : List SharedEntry) :
    openBundle (sealBundle ⟨(VaultStore.created vaultJson ['a'] 0).shareIdentitySeed⟩
      ⟨entries, none⟩ 8 9) receivingStore.shareIdentitySeed = .ok ⟨entries, none⟩ :=
  openBundle_sealBundle _ _ _ _

/-- The database passwords of two hosts, for one key of the receiver. -/
def twoHosts : List SharedEntry :=
  [⟨"a/DB".toList, ['1'], 2⟩, ⟨"b/DB".toList, ['2'], 2⟩]

/-- The second password is skipped, though the vault was empty. -/
theorem twoHosts_not_received : ¬Received receivingStore.body (some "x/".toList) false twoHosts
    ((cmdReceive vaultJson ⟨none, none, ['a']⟩ bundleJson false (some "x/".toList) false).run .quiet
      (bundleDisk twoHosts)).1
    (((cmdReceive vaultJson ⟨none, none, ['a']⟩ bundleJson false (some "x/".toList) false).run
      .quiet (bundleDisk twoHosts)).2.fs vaultJson) := by
  intro h
  have hskip := h.skips "x/DB".toList (by decide)
  exact absurd hskip.2 (by decide)

/-- Under their own keys the passwords are both kept. -/
theorem received_twoHosts : Received receivingStore.body none true twoHosts
    ((cmdReceive vaultJson ⟨none, none, ['a']⟩ bundleJson false none true).run .quiet
      (bundleDisk twoHosts)).1
    (((cmdReceive vaultJson ⟨none, none, ['a']⟩ bundleJson false none true).run .quiet
      (bundleDisk twoHosts)).2.fs vaultJson) := by
  obtain ⟨v, hopen⟩ := openVault_bundleDisk twoHosts
  have hiff := @received_iff .quiet vaultJson (bundleDisk twoHosts) v ⟨none, none, ['a']⟩ bundleJson
    none true _ receivingStore ⟨twoHosts, none⟩ Machine.quiet_faultless rfl hopen
    (openBundle_bundleDisk twoHosts) (by decide)
  exact hiff.mpr (.of_unprefixed (by decide) fun _ _ _ _ => ⟨none, rfl⟩)

end HearthVault
