/-
HearthVault.Share.ShareTheorems — what travels in a bundle.

A bundle opens for its recipient with the entries below tier 4, no tier
lowered, and for nobody else. In a `Team` the members share entries of their
vaults and receive what others have shared, in any order and any number of
times; whatever a member holds or a bundle carries then descends from an entry
that was held at the start at the same tier or a looser one
(`Team.run_tightens`), and what a bundle carries from one below tier 4.
-/
import HearthVault.Cli.Storing
import Mathlib.Logic.Relation

namespace HearthVault

open Files Symbolic Bindings

/-! ## One bundle -/

theorem TierInRange.lt_four {tier : UInt8} (h : TierInRange tier) (hne : tier ≠ tierSignOnly) :
    tier < 4 := by
  have hhigh := UInt8.le_iff_toNat_le.mp h.2
  have hfour : tier.toNat ≠ 4 := fun heq => hne (UInt8.toNat_inj.mp heq)
  rw [UInt8.lt_iff_toNat_lt]
  simp only [show (4 : UInt8).toNat = 4 from rfl] at hhigh ⊢
  omega

section

variable {entries : List (Str × Str × UInt8)} {recipient : Identity} {maxTier : Option UInt8}
  {note : Option Str} {esk nonce : Nat}

theorem tierInRange_cap {cap : UInt8} : ¬(cap = 0 ∨ cap > tierMax) ↔ TierInRange cap := by
  rw [← validateTier_eq_ok, validateTier]
  split <;> simp_all [bail]

theorem any_cap (maxTier : Option UInt8) :
    (maxTier.any fun cap => cap = 0 ∨ cap > tierMax) = true ↔
      ¬∀ cap ∈ maxTier, TierInRange cap := by
  cases maxTier with
  | none => simp
  | some cap =>
    simp only [Option.any_some, Option.mem_def, Option.some.injEq, forall_eq', decide_eq_true_iff]
    rw [← tierInRange_cap, not_not]

theorem sharePayload_eq_ok {seed : Key} {pk : PublicKey} {payload : Payload} :
    sharePayload entries (publicIdentity seed) maxTier note = .ok (pk, payload) ↔
      (∀ cap ∈ maxTier, TierInRange cap) ∧ shareEntries entries maxTier ≠ [] ∧ pk = ⟨seed⟩ ∧
        payload = ⟨shareEntries entries maxTier, note⟩ := by
  unfold sharePayload
  rw [show parseIdentity (publicIdentity seed) = .ok ⟨seed⟩ from rfl, result_ok_bind]
  split
  · rename_i hcap
    have hbad : ¬∀ cap ∈ maxTier, TierInRange cap := (any_cap maxTier).mp hcap
    constructor
    · intro h
      cases h
    · intro h
      exact absurd h.1 hbad
  · rename_i hcap
    have hrange : ∀ cap ∈ maxTier, TierInRange cap := by
      by_contra hbad
      exact hcap ((any_cap maxTier).mpr hbad)
    by_cases hempty : shareEntries entries maxTier = []
    · rw [if_pos hempty]
      simp [bail, hempty]
    · rw [if_neg hempty, Except.ok.injEq, Prod.mk.injEq]
      constructor
      · rintro ⟨rfl, rfl⟩
        exact ⟨hrange, hempty, rfl, rfl⟩
      · rintro ⟨-, -, rfl, rfl⟩
        exact ⟨rfl, rfl⟩

theorem shareSeal_eq_ok {seed : Key} {bundle : Bundle} :
    shareSeal entries (publicIdentity seed) maxTier note esk nonce = .ok bundle ↔
      (∀ cap ∈ maxTier, TierInRange cap) ∧ shareEntries entries maxTier ≠ [] ∧
        bundle = sealBundle ⟨seed⟩ ⟨shareEntries entries maxTier, note⟩ esk nonce := by
  rw [shareSeal, result_bind_eq_ok]
  constructor
  · rintro ⟨⟨pk, payload⟩, h, hbundle⟩
    obtain ⟨hrange, hne, rfl, rfl⟩ := sharePayload_eq_ok.mp h
    cases hbundle
    exact ⟨hrange, hne, rfl⟩
  · rintro ⟨hrange, hne, rfl⟩
    exact ⟨_, sharePayload_eq_ok.mpr ⟨hrange, hne, rfl, rfl⟩, rfl⟩

/-- With tiers in range, the entries below tier 4 are those that are shared. -/
theorem shareEntries_eq (h : ∀ e ∈ entries, TierInRange e.2.2) :
    shareEntries entries maxTier = (entries.filter fun e => e.2.2 < 4).map fun e =>
      ⟨e.1, e.2.1, maxTier.elim e.2.2 (max e.2.2)⟩ := by
  have hfilter : (entries.filter fun e => e.2.2 ≠ tierSignOnly) =
      entries.filter fun e => e.2.2 < 4 := by
    refine List.filter_congr fun e he => ?_
    exact decide_eq_decide.mpr ⟨(h e he).lt_four, UInt8.ne_of_lt⟩
  rw [← hfilter]
  refine List.map_congr_left fun e _ => ?_
  cases maxTier <;> rfl

theorem mem_shareEntries_of_sharePayload {identity : Identity} {pk : PublicKey} {payload : Payload}
    (h : sharePayload entries identity maxTier note = .ok (pk, payload)) {e : SharedEntry}
    (he : e ∈ payload.entries) : e ∈ shareEntries entries maxTier := by
  obtain ⟨pk', hpk, h⟩ := result_bind_eq_ok.mp h
  dsimp only at h
  split at h
  · cases h
  · split at h
    · cases h
    · cases h
      exact he

/-- No tier is lowered. -/
theorem le_tier_of_mem_shareEntries {e : SharedEntry} (h : e ∈ shareEntries entries maxTier) :
    ∃ tier, (e.key, e.value, tier) ∈ entries ∧ tier ≠ tierSignOnly ∧ tier ≤ e.tier := by
  obtain ⟨⟨key, value, tier⟩, hmem, rfl⟩ := List.mem_map.mp h
  obtain ⟨hmem, htier⟩ := List.mem_filter.mp hmem
  refine ⟨tier, hmem, by simpa using htier, ?_⟩
  cases maxTier with
  | none => exact UInt8.le_refl tier
  | some cap =>
    show tier ≤ if tier ≤ cap then cap else tier
    split
    · assumption
    · exact UInt8.le_refl tier

/-- A bundle is not opened by another identity. -/
theorem openBundle_of_fingerprint_ne {seed other : Key} {payload : Payload}
    (h : fingerprint (publicIdentity other) ≠ fingerprint (publicIdentity seed)) :
    ∃ msg, openBundle (sealBundle ⟨seed⟩ payload esk nonce) other = .error (.err msg) := by
  have hne : (⟨.publicKey ⟨seed⟩⟩ : Digest Identity) ≠ ⟨publicIdentity other⟩ :=
    fun heq => h heq.symm
  refine ⟨"this bundle is addressed to another vault identity — ask the sender " ++
      "to re-share to your identity (`hearth-vault identity`)", ?_⟩
  simp [openBundle, sealBundle, hne, bail]

/-- Whoever opens a bundle finds what was sealed. -/
theorem eq_of_openBundle {pk : PublicKey} {payload payload' : Payload} {seed : Key}
    (h : openBundle (sealBundle pk payload esk nonce) seed = .ok payload') :
    payload' = payload := by
  by_cases hto : (⟨.publicKey pk⟩ : Digest Identity) = ⟨publicIdentity seed⟩
  · obtain rfl : pk = ⟨seed⟩ := by simpa [publicIdentity] using hto
    rw [openBundle_sealBundle] at h
    cases h
    rfl
  · simp [openBundle, sealBundle, hto, bail] at h

end

/-! ## Any number of bundles -/

/-- The vaults of the members of a team, and the bundles sealed so far. -/
structure Team (ι : Type) where
  vaults : ι → VaultBody
  bundles : List Bundle

namespace Team

variable {ι : Type}

/-- A member seals entries to any identity, or receives a bundle that somebody
has sealed. -/
inductive Step [DecidableEq ι] (seeds : ι → Key) : Team ι → Team ι → Prop
  | share {s : Team ι} {i : ι} {pre : Str} {recipient : Identity} {maxTier : Option UInt8}
      {note : Option Str} {esk nonce : Nat} {bundle : Bundle}
      (h : shareSeal ((s.vaults i).entriesWithPrefix pre) recipient maxTier note esk nonce =
        .ok bundle) :
    Step seeds s { s with bundles := bundle :: s.bundles }
  | receive {s : Team ι} {i : ι} {bundle : Bundle} {payload : Payload} {pre : Option Str}
      {force : Bool} {store store' : VaultStore} {stored : List (Str × Str)} {m : Machine}
      {w w' : Disk} (hbundle : bundle ∈ s.bundles)
      (hopen : openBundle bundle (seeds i) = .ok payload) (hbody : store.body = s.vaults i)
      (h : (receiveAll pre force payload.entries store).run m w = (.ok (store', stored), w')) :
    Step seeds s { s with vaults := Function.update s.vaults i store'.body }

/-- A member holds a value at a tier, or at a looser one. -/
def Holds (s : Team ι) (value : Str) (tier : UInt8) : Prop :=
  ∃ i key t, (s.vaults i).view key = some (value, t) ∧ t ≤ tier

/-- Every tier is in range. Whatever is held or in a bundle was held at the
start at the same tier or a looser one, what is in a bundle below tier 4. -/
structure Tightens (s s' : Team ι) : Prop where
  tiers : ∀ i key value tier, (s'.vaults i).view key = some (value, tier) → TierInRange tier
  held : ∀ i key value tier, (s'.vaults i).view key = some (value, tier) → s.Holds value tier
  shared : ∀ bundle ∈ s'.bundles, ∀ seed payload, openBundle bundle seed = .ok payload →
    ∀ e ∈ payload.entries, ∃ tier < 4, tier ≤ e.tier ∧ s.Holds e.value tier

theorem Holds.mono {s : Team ι} {value : Str} {tier tier' : UInt8} (h : s.Holds value tier)
    (hle : tier ≤ tier') : s.Holds value tier' := by
  obtain ⟨i, key, t, hview, ht⟩ := h
  exact ⟨i, key, t, hview, UInt8.le_trans ht hle⟩

end Team

namespace Team

variable {ι : Type} [DecidableEq ι] {seeds : ι → Key} {s₀ s s' : Team ι}

theorem Tightens.step (h : s₀.Tightens s) (hstep : Step seeds s s') : s₀.Tightens s' := by
  cases hstep with
  | @share i pre recipient maxTier note esk nonce bundle hseal =>
    refine ⟨h.tiers, h.held, fun b hb seed payload hopen e he => ?_⟩
    obtain rfl | hb := List.mem_cons.mp hb
    · -- The bundle just sealed: its entries are held by the member who sealed it.
      obtain ⟨⟨pk, sealed⟩, hpayload, hbundle⟩ := result_bind_eq_ok.mp hseal
      cases hbundle
      obtain rfl := eq_of_openBundle hopen
      obtain ⟨tier, hmem, hne, hle⟩ := le_tier_of_mem_shareEntries
        (mem_shareEntries_of_sharePayload hpayload he)
      have hview := mem_entriesWithPrefix hmem
      exact ⟨tier, (h.tiers _ _ _ _ hview).lt_four hne, hle, h.held _ _ _ _ hview⟩
    · exact h.shared b hb seed payload hopen e he
  | @receive i bundle payload pre force store store' stored m w w' hbundle hopen hbody hrun =>
    obtain ⟨hstoring, -, -⟩ := receiveAll_eq_ok hrun
    have hview : ∀ j key value tier,
        ((Function.update s.vaults i store'.body) j).view key = some (value, tier) →
        (∃ k, (s.vaults k).view key = some (value, tier)) ∨ TierInRange tier ∧
          ∃ e ∈ payload.entries, e.value = value ∧ e.tier = tier := by
      intro j key value tier hj
      by_cases hji : j = i
      · rw [hji, Function.update_self] at hj
        obtain hold | hnew := hstoring.view_eq_some hj
        · rw [hbody] at hold
          exact .inl ⟨i, hold⟩
        · obtain ⟨e, he, heq⟩ := List.mem_map.mp (mem_of_mem_taken hnew)
          cases heq
          exact .inr ⟨hstoring.tiers _ hnew, e, he, rfl, rfl⟩
      · rw [Function.update_of_ne hji] at hj
        exact .inl ⟨j, hj⟩
    constructor
    · intro j key value tier hj
      obtain ⟨k, hk⟩ | ⟨htier, -⟩ := hview j key value tier hj
      · exact h.tiers k key value tier hk
      · exact htier
    · intro j key value tier hj
      obtain ⟨k, hk⟩ | ⟨-, e, he, rfl, rfl⟩ := hview j key value tier hj
      · exact h.held k key value tier hk
      · obtain ⟨t, -, hle, hholds⟩ := h.shared bundle hbundle (seeds i) payload hopen e he
        exact hholds.mono hle
    · exact h.shared

/-- Any number of shares and receipts, in any order. -/
theorem run_tightens
    (htiers : ∀ i key value tier, (s.vaults i).view key = some (value, tier) → TierInRange tier)
    (hstart : s.bundles = []) (h : Relation.ReflTransGen (Step seeds) s s') : s.Tightens s' := by
  induction h with
  | refl =>
    refine ⟨htiers, fun i key value tier hview => ⟨i, key, tier, hview, UInt8.le_refl tier⟩, ?_⟩
    intro bundle hbundle
    rw [hstart] at hbundle
    cases hbundle
  | tail _ hstep ih => exact ih.step hstep

end Team

/-! ## Sharing -/

/-- Sealing succeeds when the cap is a tier and some entry is below tier 4.
The recipient opens the bundle and finds those entries, in order, each at its
tier or at the cap if that is stricter, and the note; another identity gets an
error. And over any number of shares and receipts nothing reaches a looser
tier, and no value that is held at tier 4 only a bundle. -/
theorem share_roundTrip {entries : List (Str × Str × UInt8)}
    (hentries : ∀ e ∈ entries, TierInRange e.2.2) (seed : Key) (maxTier : Option UInt8)
    (note : Option Str) (esk nonce : Nat) :
    ((∃ bundle, shareSeal entries (publicIdentity seed) maxTier note esk nonce = .ok bundle) ↔
      (∀ cap ∈ maxTier, TierInRange cap) ∧ ∃ e ∈ entries, e.2.2 < 4) ∧
    (∀ bundle, shareSeal entries (publicIdentity seed) maxTier note esk nonce = .ok bundle →
      openBundle bundle seed = .ok
        ⟨(entries.filter fun e => e.2.2 < 4).map fun e =>
          ⟨e.1, e.2.1, maxTier.elim e.2.2 (max e.2.2)⟩, note⟩ ∧
      ∀ other, fingerprint (publicIdentity other) ≠ fingerprint (publicIdentity seed) →
        ∃ msg, openBundle bundle other = .error (.err msg)) ∧
    ∀ (ι : Type) [DecidableEq ι] (seeds : ι → Key) (s s' : Team ι),
      (∀ i key value tier, (s.vaults i).view key = some (value, tier) → TierInRange tier) →
      s.bundles = [] → Relation.ReflTransGen (Team.Step seeds) s s' → s.Tightens s' := by
  refine ⟨?_, ?_, fun ι _ seeds s s' htiers hstart h => Team.run_tightens htiers hstart h⟩
  · have hsome : shareEntries entries maxTier ≠ [] ↔ ∃ e ∈ entries, e.2.2 < 4 := by
      rw [shareEntries_eq hentries, ne_eq, List.map_eq_nil_iff, List.filter_eq_nil_iff]
      simp
    simp only [shareSeal_eq_ok, hsome]
    constructor
    · rintro ⟨_, hrange, hlow, -⟩
      exact ⟨hrange, hlow⟩
    · rintro ⟨hrange, hlow⟩
      exact ⟨_, hrange, hlow, rfl⟩
  · intro bundle hseal
    obtain ⟨-, -, rfl⟩ := shareSeal_eq_ok.mp hseal
    rw [shareEntries_eq hentries]
    exact ⟨openBundle_sealBundle seed _ esk nonce,
      fun other hother => openBundle_of_fingerprint_ne hother⟩

/-- With a cap of 3, a tier-2 entry arrives at tier 3 and a tier-4 entry does
not. -/
theorem share_roundTrip_capped : ∃ bundle,
    shareSeal [("a".toList, "1".toList, 2), ("b".toList, "2".toList, 4)]
      (publicIdentity (.random 0)) (some 3) none 1 2 = .ok bundle ∧
    openBundle bundle (.random 0) = .ok ⟨[⟨"a".toList, "1".toList, 3⟩], none⟩ := by
  obtain ⟨hsucceeds, hopens, -⟩ := @share_roundTrip
    [("a".toList, "1".toList, 2), ("b".toList, "2".toList, 4)] (by simp; decide)
    (.random 0) (some 3) none 1 2
  obtain ⟨bundle, hseal⟩ := hsucceeds.mpr ⟨by simp; decide, _, .head _, by decide⟩
  exact ⟨bundle, hseal, (hopens bundle hseal).1⟩

end HearthVault
