/-
HearthVault.Cli.TransferRuns — `import` and `receive`, from the vault file
before to the vault file after.

What `receive` stores is sealed to the identity of the vault, which is known
once the vault is open; opening does not read the clock, so it is the same at
whatever time the values are stored.

The lemmas are those of `Cli.StoringRuns` for the other two commands: the run
up to the store under the lock, the commit, and from both of them the ends and
the case that is reached.
-/
import HearthVault.Cli.StoringRuns

namespace HearthVault

open Files Symbolic Calendar Bindings

/-! ### import -/

/-- What `import` stores: the text of a file, in a vault that opens. -/
structure ImportTask [JsonText] (path : Path) (w : Disk) (unlock : Unlock) (file : FileArg)
    (key : Str) (tier : UInt8) (body : VaultBody) (items : List (Str × Str × UInt8)) : Prop where
  stored : ∃ c text, w.fs file.path = some c ∧ c.asText = .ok text ∧ Str.trim text ≠ [] ∧
    items = [(key, Str.trim text, tier)]
  opens : unlock.Opens path (w.fs path) body
  tiers : ∀ i ∈ items, TierInRange i.2.2

section

variable [JsonText] {m : Machine} {path : Path} {w : Disk} {unlock : Unlock} {file : FileArg}
  {key : Str} {tier : UInt8}

/-- What `import` does with the text it has read. -/
def importText (path : Path) (unlock : Unlock) (file : FileArg) (key : Str) (tier : UInt8)
    (text : Str) : Prog Unit := do
  let value := Str.trim text
  Fx.ensure (value ≠ []) "file is empty"
  let store ← openVault path unlock
  let store ← store.lockAndRefresh
  let store ← store.set key value tier
  let store ← store.save
  Fx.mapErr (· ++ s!"; source file NOT deleted: {String.ofList file.text}")
    (store.verifyPersisted [(key, value)])
  secureDeleteFile file.path

theorem cmdImport_eq : cmdImport path unlock file key tier =
    readSource file (importText path unlock file key tier) :=
  rfl

variable (hm : m.Faultless)

include hm

/-- The source is not there, or it is no text, or it is blank. -/
theorem cmdImport_unread (h : ¬∃ c text, w.fs file.path = some c ∧ c.asText = .ok text ∧
    Str.trim text ≠ []) : ∃ e v, w.Frame ∅ v ∧
      (cmdImport path unlock file key tier).run m w = (.error e, v) := by
  by_cases hread : ∃ c text, w.fs file.path = some c ∧ c.asText = .ok text
  · obtain ⟨c, text, hfile, htext⟩ := hread
    have hvalue : ¬Str.trim text ≠ [] := fun hvalue => h ⟨c, text, hfile, htext, hvalue⟩
    obtain ⟨v, hv, hrun⟩ := readSource_run hm hfile htext (importText path unlock file key tier)
    refine ⟨.err "file is empty", v, hv, hrun.trans ?_⟩
    rw [importText, Fx.ensure, if_neg hvalue]
    rfl
  · obtain ⟨e, v, hrun, hv⟩ := readSource_unread hm hread (importText path unlock file key tier)
    exact ⟨e, v, hv, hrun⟩

/-- A source that can be read is read, and the vault is opened and locked. -/
theorem cmdImport_run {c : Contents} {text : Str} (hfile : w.fs file.path = some c)
    (htext : c.asText = .ok text) (hvalue : Str.trim text ≠ []) :
    (∀ body, unlock.Opens path (w.fs path) body →
      ∃ (store : VaultStore) (v : Disk), store.Current path v ∧ store.body = body ∧
      v.ticks = w.ticks ∧ (∀ q ∉ vaultFiles path, v.fs q = w.fs q) ∧
      (cmdImport path unlock file key tier).run m w = (do
        let store ← store.set key (Str.trim text) tier
        let store ← store.save
        Fx.mapErr (· ++ s!"; source file NOT deleted: {String.ofList file.text}")
          (store.verifyPersisted [(key, Str.trim text)])
        secureDeleteFile file.path : Prog Unit).run m v) ∧
    ((∀ body, ¬unlock.Opens path (w.fs path) body) →
      ∃ (e : Halt) (v : Disk), v.fs path = w.fs path ∧
      (cmdImport path unlock file key tier).run m w = (.error e, v)) := by
  obtain ⟨w₁, hw₁, hrun⟩ := readSource_run hm hfile htext (importText path unlock file key tier)
  have hfs : w₁.fs path = w.fs path := hw₁.fs path (by simp)
  rw [cmdImport_eq, hrun, importText, Fx.bind_run_ok (Fx.ensure_run hvalue _ m w₁)]
  constructor
  · intro body hopens
    rw [← hfs] at hopens
    obtain ⟨opened, w₂, hopen, hcurrent, hbody, hticks, hothers⟩ := openVault_found hm hopens
    obtain ⟨store, v, hrefresh, hframe, hcurrent', hbody', -⟩ := hcurrent.lockAndRefresh hm
    refine ⟨store, v, hcurrent', hbody'.trans hbody, ?_, fun q hq => ?_, ?_⟩
    · rw [hframe.ticks, hticks, hw₁.ticks]
    · rw [hframe.fs q (by simp), hothers q hq, hw₁.fs q (by simp)]
    · rw [Fx.bind_run_ok hopen, Fx.bind_run_ok hrefresh]
  · intro hopens
    obtain ⟨msg, v, hopen, hkept⟩ := openVault_refused hm (hfs ▸ hopens)
    exact ⟨_, v, hkept.trans hfs, Fx.bind_run_error hopen⟩

/-- The value is saved and verified, and then the source is deleted. -/
theorem cmdImport_commit {store store' : VaultStore} {value : Str} {v : Disk}
    (hcurrent : store.Current path w) (hapart : file.path ∉ vaultFiles path)
    (hsource : (w.fs file.path).isSome = true)
    (hset : (store.set key value tier).run m w = (.ok store', v)) :
    ∃ u, Saves path w store.body [(key, value, tier)] store'.body u ∧ (do
      let store ← store.set key value tier
      let store ← store.save
      Fx.mapErr (· ++ s!"; source file NOT deleted: {String.ofList file.text}")
        (store.verifyPersisted [(key, value)])
      secureDeleteFile file.path : Prog Unit).run m w = (.ok (), u) := by
  obtain ⟨hstoring, htime⟩ := set_eq_ok hset
  have hcurrent' : store.Current path v := hcurrent.of_fs (by rw [htime.fs])
  obtain ⟨saved, u, hsave, hentries, hothers, msg, u', hverify, hu'⟩ :=
    commit_run hm hcurrent' hstoring
  have hagree : Agree (keyValues [(key, value, tier)]) := by
    intro b hb b' hb' _
    rw [List.mem_singleton.mp hb, List.mem_singleton.mp hb']
  rw [if_pos hagree] at hverify
  replace hverify : (saved.verifyPersisted [(key, value)]).run m u = (.ok (), u') := hverify
  have hpresent : (u'.fs file.path).isSome = true := by
    rw [hu'.fs file.path (by simp), hothers file.path hapart, htime.fs, hsource]
  obtain ⟨c, hc⟩ := Option.isSome_iff_exists.mp hpresent
  obtain ⟨z, hdelete, hz⟩ := secureDeleteFile_run hm hc
  refine ⟨z, ⟨hcurrent.entries, ?_, hstoring.view⟩, ?_⟩
  · have hne : path ≠ file.path := fun h => hapart (h ▸ .inl rfl)
    rw [hz, Function.update_of_ne hne, hu'.fs path (by simp)]
    exact hentries
  · rw [Fx.bind_run_ok hset, Fx.bind_run_ok hsave,
      Fx.bind_run_ok (Fx.mapErr_eq_ok.mpr hverify), hdelete]

theorem cmdImport_ends (hapart : file.path ∉ vaultFiles path) :
    Ends path w (ImportTask path w unlock file key tier) (fun _ _ => True)
      ((cmdImport path unlock file key tier).run m w).1
      ((cmdImport path unlock file key tier).run m w).2 := by
  by_cases hread : ∃ c text, w.fs file.path = some c ∧ c.asText = .ok text ∧ Str.trim text ≠ []
  swap
  · obtain ⟨e, v, hframe, hrun⟩ := cmdImport_unread hm hread
    rw [hrun]
    exact .failed (.of_fs (hframe.fs path (by simp)))
  obtain ⟨c, text, hfile, htext, hvalue⟩ := hread
  by_cases hopens : ∃ body, unlock.Opens path (w.fs path) body
  · obtain ⟨body, hopens⟩ := hopens
    obtain ⟨store, v, hcurrent, rfl, -, hothers, hrun⟩ :=
      (cmdImport_run hm hfile htext hvalue).1 body hopens
    rw [hrun]
    rcases hset : (store.set key (Str.trim text) tier).run m v with ⟨r, v'⟩
    cases r with
    | error e =>
      have hkept : ((store.set key (Str.trim text) tier).run m v).2.fs path = v.fs path :=
        hcurrent.loop_fs fun h => VaultStore.set_keeps trivial_invariant h
      rw [hset] at hkept
      rw [Fx.bind_run_error hset]
      exact .failed (.of_entries hopens.entries (hkept ▸ hcurrent.entries))
    | ok store' =>
      have hsource : (v.fs file.path).isSome = true := by
        rw [hothers file.path hapart, hfile]
        rfl
      obtain ⟨u, hsaves, hcommit⟩ := cmdImport_commit hm hcurrent hapart hsource hset
      rw [hcommit]
      refine .stored ⟨⟨c, text, hfile, htext, hvalue, rfl⟩, hopens, (set_eq_ok hset).1.tiers⟩
        (hsaves.from hopens.entries) (fun b hb b' hb' _ => ?_) trivial
      rw [List.mem_singleton.mp hb, List.mem_singleton.mp hb']
  · obtain ⟨e, v, hfs, hrun⟩ := (cmdImport_run hm hfile htext hvalue).2 (not_exists.mp hopens)
    rw [hrun]
    exact .failed (.of_fs hfs)

end

theorem cmdImport_reaches [JsonText] {path : Path} {w : Disk} {unlock : Unlock} {file : FileArg}
    {key : Str} {tier : UInt8} (hapart : file.path ∉ vaultFiles path) {body : VaultBody}
    {items : List (Str × Str × UInt8)} (htask : ImportTask path w unlock file key tier body items) :
    ∃ m, Machine.Faultless m ∧
      Commits path w body items ((cmdImport path unlock file key tier).run m w).2 := by
  obtain ⟨⟨c, text, hfile, htext, hvalue, rfl⟩, hopens, htiers⟩ := htask
  obtain ⟨now, body', hset, -, hretimed, -⟩ := @set_timed body body key (Str.trim text) tier
    (htiers _ (List.mem_singleton.mpr rfl))
  set m : Machine := .at w.ticks [now] with hm
  obtain ⟨store, v, hcurrent, rfl, hticks, hothers, hrun⟩ := (cmdImport_run (m := m)
    (Machine.at_faultless _ _) hfile htext hvalue).1 body hopens
  have hstores := hset store rfl m v fun i t ht => by
    rw [hticks]
    exact Machine.at_clock ht
  have hsource : (v.fs file.path).isSome = true := by
    rw [hothers file.path hapart, hfile]
    rfl
  obtain ⟨u, hsaves, hcommit⟩ := cmdImport_commit (Machine.at_faultless _ _) hcurrent hapart hsource
    hstores
  refine ⟨m, Machine.at_faultless _ _, body', ?_, hretimed.ne⟩
  rw [hrun, hcommit]
  exact hsaves.from hopens.entries

/-! ### receive -/

/-- What `receive` stores: the entries of a bundle that the vault's identity
opens, each new key once, or with `--force` every entry. -/
structure ReceiveTask (path : Path) (m : Machine) (w : Disk) (unlock : Unlock) (file : Path)
    (pre : Option Str) (force : Bool) (payload : Payload) (body : VaultBody)
    (items : List (Str × Str × UInt8)) : Prop where
  opens : ∃ bundle store v, w.fs file = some (.bundle bundle) ∧
    (openVault path unlock).run m (w.tick (.read file)) = (.ok store, v) ∧
    openBundle bundle store.shareIdentitySeed = .ok payload
  before : Entries (w.fs path) body
  stored : items = taken force body.view (receivedItems pre payload.entries)
  tiers : ∀ i ∈ items, TierInRange i.2.2

theorem ReceiveTask.unique {path : Path} {m : Machine} {w : Disk} {unlock : Unlock} {file : Path}
    {pre : Option Str} {force : Bool} {payload payload' : Payload} {body body' : VaultBody}
    {items items' : List (Str × Str × UInt8)}
    (h : ReceiveTask path m w unlock file pre force payload body items)
    (h' : ReceiveTask path m w unlock file pre force payload' body' items') :
    payload = payload' ∧ body = body' ∧ items = items' := by
  obtain ⟨⟨bundle, store, v, hfile, hopen, hpayload⟩, hbody, rfl, -⟩ := h
  obtain ⟨⟨bundle', store', v', hfile', hopen', hpayload'⟩, hbody', rfl, -⟩ := h'
  rw [hfile] at hfile'
  cases hfile'
  rw [hopen] at hopen'
  cases hopen'
  rw [hpayload] at hpayload'
  cases hpayload'
  cases hbody.unique hbody'
  exact ⟨rfl, rfl, rfl⟩

section

variable {m : Machine} {path : Path} {w : Disk} {unlock : Unlock} {file : Path} {dryRun : Bool}
  {pre : Option Str} {force : Bool}

/-- What follows the opening of the vault and of the bundle. -/
def storeReceived (pre : Option Str) (force : Bool) (entries : List SharedEntry)
    (store : VaultStore) : Prog Unit := do
  let store ← store.lockAndRefresh
  let (store, stored) ← receiveAll pre force entries store
  Fx.when (stored ≠ []) do
    let store ← store.save
    store.verifyPersisted stored

variable (hm : m.Faultless)

include hm

/-- A bundle is read, and then the vault is opened. -/
theorem cmdReceive_reads {bundle : Bundle} (hfile : w.fs file = some (.bundle bundle)) :
    (cmdReceive path unlock file dryRun pre force).run m w = (do
      let store ← openVault path unlock
      let payload ← Fx.ofResult (openBundle bundle store.shareIdentitySeed)
      Fx.when (dryRun = false) (storeReceived pre force payload.entries store) : Prog Unit).run m
        (w.tick (.read file)) := by
  have hread : (Fx.mapErr (s!"cannot read bundle {String.ofList file.display}: " ++ ·)
      (Fx.read file) : Prog Contents).run m w = (.ok (.bundle bundle), w.tick (.read file)) :=
    Fx.mapErr_eq_ok.mpr (Fx.read_run hm hfile)
  unfold cmdReceive
  rw [Fx.bind_run_ok hread]
  rfl

/-- From the lock on: the entries are saved, and verified if they agree. -/
theorem storeReceived_run {store : VaultStore} {entries : List SharedEntry}
    (hcurrent : store.Current path w) : ∃ locked v, locked.Current path v ∧
      locked.body = store.body ∧ v.ticks = w.ticks ∧
      (∀ e u, (receiveAll pre force entries locked).run m v = (.error e, u) →
        (storeReceived pre force entries store).run m w = (.error e, u)) ∧
      ∀ store' stored u, (receiveAll pre force entries locked).run m v = (.ok (store', stored), u) →
        ∃ msg z, Saves path w store.body
            (taken force store.body.view (receivedItems pre entries)) store'.body z ∧
          (storeReceived pre force entries store).run m w =
            (if Agree (keyValues (taken force store.body.view (receivedItems pre entries)))
              then .ok () else bail msg, z) := by
  obtain ⟨locked, v, hlock, hframe, hcurrent', hbody, -⟩ := hcurrent.lockAndRefresh hm
  refine ⟨locked, v, hcurrent', hbody, hframe.ticks, fun e u hloop => ?_,
    fun store' stored u hloop => ?_⟩
  · rw [storeReceived, Fx.bind_run_ok hlock, Fx.bind_run_error hloop]
  · obtain ⟨hstoring, rfl, htime⟩ := receiveAll_eq_ok hloop
    rw [hbody] at hstoring hloop
    have hu : locked.Current path u := hcurrent'.of_fs (by rw [htime.fs])
    rw [storeReceived, Fx.bind_run_ok hlock, Fx.bind_run_ok hloop]
    dsimp only
    by_cases hnone : keyValues (taken force store.body.view (receivedItems pre entries)) = []
    · rw [hnone] at hloop
      cases receiveAll_nil hloop
      refine ⟨"", u, ⟨hcurrent.entries, hu.entries, hbody ▸ hstoring.view⟩, ?_⟩
      rw [Fx.when, if_neg (not_not.mpr hnone), hnone]
      rfl
    · obtain ⟨saved, z, hsave, hentries, -, msg, z', hverify, hz'⟩ := commit_run hm hu hstoring
      refine ⟨msg, z', ⟨hcurrent.entries, ?_, hbody ▸ hstoring.view⟩, ?_⟩
      · rw [hz'.fs path (by simp)]
        exact hentries
      · rw [Fx.when, if_pos hnone, Fx.bind_run_ok hsave, hverify]

/-- What is read is no bundle. -/
theorem cmdReceive_unread (h : ¬∃ bundle, w.fs file = some (.bundle bundle)) : ∃ e, Fx.Answers m
    (cmdReceive path unlock file dryRun pre force) w (.error e) := by
  cases hfile : w.fs file with
  | none => exact ⟨_, (Fx.Answers.read_missing hm hfile).mapErr.bind_error⟩
  | some c =>
    have hparse : parseBundle c = bail "not a bundle file" := by
      cases c with
      | bundle b => exact absurd ⟨b, hfile⟩ h
      | _ => rfl
    refine ⟨.err "not a bundle file", (Fx.Answers.read hm hfile).mapErr.bind fun v _ => ?_⟩
    rw [hparse]
    exact Fx.Answers.ofResult.bind_error

theorem cmdReceive_ends : Ends path w
    (fun body items => dryRun = false ∧
      ∃ payload, ReceiveTask path m w unlock file pre force payload body items)
    (fun _ _ => True) ((cmdReceive path unlock file dryRun pre force).run m w).1
    ((cmdReceive path unlock file dryRun pre force).run m w).2 := by
  by_cases hbundle : ∃ bundle, w.fs file = some (.bundle bundle)
  swap
  · obtain ⟨e, v, hrun, hframe⟩ := cmdReceive_unread hm hbundle
    rw [hrun]
    exact .failed (.of_fs (hframe.fs path (by simp)))
  obtain ⟨bundle, hfile⟩ := hbundle
  rw [cmdReceive_reads hm hfile]
  have hopens : Opening path (w.tick (.read file)) (unlock.Opens path (w.fs path))
      ((openVault path unlock).run m (w.tick (.read file))) := openVault_opens hm unlock
  rcases hopen : (openVault path unlock).run m (w.tick (.read file)) with ⟨r, v⟩
  rw [hopen] at hopens
  cases r with
  | error e =>
    rw [Fx.bind_run_error hopen]
    exact .failed (.of_fs hopens.2.1)
  | ok store =>
    obtain ⟨hcurrent, hunlock⟩ := hopens
    have hbefore : Entries (w.fs path) store.body := hunlock.entries
    rw [Fx.bind_run_ok hopen]
    cases hpayload : openBundle bundle store.shareIdentitySeed with
    | error e => exact .failed (.of_entries hbefore hcurrent.entries)
    | ok payload =>
      rw [Fx.ofResult_ok_bind]
      by_cases hdry : dryRun = false
      swap
      · rw [Fx.when, if_neg hdry]
        exact .idle (.of_entries hbefore hcurrent.entries) trivial fun _ _ h => absurd h.1 hdry
      rw [Fx.when, if_pos hdry]
      obtain ⟨locked, u, hlocked, hbody, -, hfails, hends⟩ :=
        @storeReceived_run m path v pre force hm store payload.entries hcurrent
      rcases hloop : (receiveAll pre force payload.entries locked).run m u with ⟨r, u'⟩
      cases r with
      | error e =>
        have hkept :
            ((receiveAll pre force payload.entries locked).run m u).2.fs path = u.fs path :=
          hlocked.loop_fs (receiveAll_keeps trivial_invariant)
        rw [hfails e u' hloop]
        rw [hloop] at hkept
        refine .failed (.of_entries hbefore ?_)
        rw [hkept, ← hbody]
        exact hlocked.entries
      | ok result =>
        obtain ⟨store', stored⟩ := result
        obtain ⟨msg, z, hsaves, hrun⟩ := hends store' stored u' hloop
        obtain ⟨hstoring, -, -⟩ := receiveAll_eq_ok hloop
        rw [hbody] at hstoring
        have htask : ReceiveTask path m w unlock file pre force payload store.body
            (taken force store.body.view (receivedItems pre payload.entries)) :=
          ⟨⟨bundle, store, v, hfile, hopen, hpayload⟩, hbefore, rfl, hstoring.tiers⟩
        rw [hrun]
        by_cases hagree : Agree (keyValues
            (taken force store.body.view (receivedItems pre payload.entries)))
        · rw [if_pos hagree]
          exact .stored ⟨hdry, payload, htask⟩ (hsaves.from hbefore) hagree trivial
        · rw [if_neg hagree]
          exact .unverified ⟨hdry, payload, htask⟩ (hsaves.from hbefore) hagree

omit hm in
/-- What there is to store does not depend on the time. -/
theorem ReceiveTask.at_clock {payload : Payload} {body : VaultBody}
    {items : List (Str × Str × UInt8)}
    (h : ReceiveTask path m w unlock file pre force payload body items) (clock : Nat → Int) :
    ReceiveTask path { m with clock } w unlock file pre force payload body items := by
  obtain ⟨⟨bundle, store, v, hfile, hopen, hpayload⟩, hbefore, hstored, htiers⟩ := h
  have hopen' :
      (openVault path unlock).run { m with clock } (w.tick (.read file)) = (.ok store, v) := by
    rw [(openVault_footprint subset_rfl unlock).run_clock, hopen]
  exact ⟨⟨bundle, store, v, hfile, hopen', hpayload⟩, hbefore, hstored, htiers⟩

theorem cmdReceive_reaches {payload : Payload} {body : VaultBody}
    {items : List (Str × Str × UInt8)}
    (htask : ReceiveTask path m w unlock file pre force payload body items) (hitems : items ≠ []) :
    ∃ clock, Commits path w body items
      ((cmdReceive path unlock file false pre force).run { m with clock } w).2 := by
  obtain ⟨⟨bundle, store, v, hfile, hopen, hpayload⟩, hbefore, rfl, htiers⟩ := htask
  have hopens : Opening path (w.tick (.read file)) (unlock.Opens path (w.fs path))
      ((openVault path unlock).run m (w.tick (.read file))) := openVault_opens hm unlock
  rw [hopen] at hopens
  obtain ⟨hcurrent, hunlock⟩ := hopens
  cases hbefore.unique hunlock.entries
  obtain ⟨times, body', stored, hloop, hend⟩ := receiveAll_timed store.body htiers
  have hne : body' ≠ store.body := (hend.resolve_left fun h => hitems h.1).ne
  have hticks : v.ticks = w.ticks := by
    have hrun : ((openVault path unlock).run m (w.tick (.read file))).2.ticks = w.ticks :=
      (openVault_footprint subset_rfl unlock).run_ticks
    rw [hopen] at hrun
    exact hrun
  obtain ⟨clock, hclock⟩ : ∃ clock : Nat → Int, ∀ i t, times[i]? = some t →
      clock (w.ticks + i) = t :=
    ⟨fun n => times.getD (n - w.ticks) 0, fun i t ht => by simp [ht]⟩
  have hm' : Machine.Faultless { m with clock } := hm
  obtain ⟨locked, u, hlocked, hbody, hticks', -, hends⟩ :=
    @storeReceived_run _ path v pre force hm' store payload.entries hcurrent
  have hstores := hloop locked hbody { m with clock } u fun i t ht => by
    rw [hticks', hticks]
    exact hclock i t ht
  obtain ⟨msg, z, hsaves, hrun⟩ := hends _ _ _ hstores
  have hopen' :
      (openVault path unlock).run { m with clock } (w.tick (.read file)) = (.ok store, v) := by
    rw [(openVault_footprint subset_rfl unlock).run_clock, hopen]
  have hreceive : (cmdReceive path unlock file false pre force).run { m with clock } w =
      (if Agree (keyValues (taken force store.body.view (receivedItems pre payload.entries))) then
        .ok () else bail msg, z) := by
    rw [cmdReceive_reads hm' hfile, Fx.bind_run_ok hopen', hpayload, Fx.ofResult_ok_bind, Fx.when,
      if_pos rfl, hrun]
  exact ⟨clock, body', hreceive ▸ hsaves.from hbefore, hne⟩

end

end HearthVault
