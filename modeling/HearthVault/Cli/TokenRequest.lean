/-
HearthVault.Cli.TokenRequest — the body of a request for an installation
token.

A field that is missing from the body, or an empty name within it, means no
restriction, so what counts is that nothing gets lost on the way: the body
names every repository and every permission that was asked for, and a list
with one that it cannot name is refused (`buildTokenRequestBody_exact`).

The loop over the permissions carries what it has collected, so its invariant
speaks of any beginning: `Accepts perms list` says which lists can be added to
`perms`, `Adds` what is there afterwards, and `addPermissions` shows by
induction that the loop does one or bails. A permission has one reading
(`IsPermission.unique`), which is what makes a name that comes twice a
conflict.
-/
import HearthVault.Lib.Files
import HearthVault.Lib.Text
import Std.Data.ExtTreeMap

namespace HearthVault

open Files

abbrev Permissions := Std.ExtTreeMap Str Str compare

/-- A value in the body: a list of names, or an object of texts. -/
inductive RequestValue
  | strings (names : List Str)
  | object (entries : Permissions)

abbrev RequestBody := Std.ExtTreeMap Str RequestValue compare

/-- `is_ascii_lowercase`, `is_ascii_digit` or an underscore. -/
def isPermissionByte (b : UInt8) : Bool :=
  (97 ≤ b && b ≤ 122) || (48 ≤ b && b ≤ 57) || b == 95

def checkRepository (r : Str) : Result Unit :=
  if Str.trim r = [] then
    bail "--repository value must not be empty; pass a simple repo name like `myapp`"
  else .ok ()

/-- One round of the loop over the permissions. -/
def addPermission (perms : Permissions) (p : Str) : Result Permissions :=
  match Str.splitOnce '=' p with
  | none => bail s!"--permission must be <name>=<read|write>, got `{String.ofList p}`"
  | some (name, level) =>
    let name := Str.trim name
    if name = [] ∨ !(Str.utf8 name).all isPermissionByte then
      bail (s!"--permission name `{String.ofList name}` is invalid; " ++
        "use a GitHub permission name like `contents` or `pull_requests`")
    else
      let level := Str.trim level
      if level ≠ "read".toList ∧ level ≠ "write".toList then
        bail (s!"--permission level for `{String.ofList name}` must be `read` or `write`, " ++
          s!"got `{String.ofList level}`")
      else
        -- What was inserted is gone with the error.
        match perms[name]? with
        | some _ => bail s!"--permission `{String.ofList name}` given more than once"
        | none => .ok (perms.insert name level)

/-- `build_token_request_body`. -/
def buildTokenRequestBody (repos permissions : List Str) : Result (Option RequestBody) := do
  let body : RequestBody := ∅
  let body ← if repos = [] then .ok body else do
    repos.forM checkRepository
    .ok (body.insert "repositories".toList (.strings repos))
  let body ← if permissions = [] then .ok body else do
    let perms ← permissions.foldlM addPermission ∅
    .ok (body.insert "permissions".toList (.object perms))
  .ok (if body.isEmpty then none else some body)

/-! ## What is asked for -/

def IsPermissionChar (c : Char) : Prop :=
  ('a' ≤ c ∧ c ≤ 'z') ∨ ('0' ≤ c ∧ c ≤ '9') ∨ c = '_'

/-- A permission is a name and a level around its first equals sign, with
blanks around both. -/
structure IsPermission (p name level : Str) : Prop where
  parts : ∃ a b, p = a ++ '=' :: b ∧ '=' ∉ a ∧ Str.trim a = name ∧ Str.trim b = level
  nonempty : name ≠ []
  chars : ∀ c ∈ name, IsPermissionChar c
  level : level = "read".toList ∨ level = "write".toList

def SameName (p q : Str) : Prop :=
  ∃ name level level', IsPermission p name level ∧ IsPermission q name level'

/-- A blank repository, a permission that is none, or two of one name. -/
def Refused (repos permissions : List Str) : Prop :=
  (∃ r ∈ repos, Str.trim r = []) ∨
  (∃ p ∈ permissions, ¬∃ name level, IsPermission p name level) ∨
  ∃ p q, [p, q].Sublist permissions ∧ SameName p q

/-- One entry for each permission. -/
structure Grants (entries : Permissions) (permissions : List Str) : Prop where
  entry : ∀ name level, entries[name]? = some level ↔ ∃ p ∈ permissions, IsPermission p name level
  size : entries.size = permissions.length

/-- A body that asks for these repositories and permissions. -/
structure Asks (body : RequestBody) (repos permissions : List Str) : Prop where
  repositories : body["repositories".toList]? = if repos = [] then none else some (.strings repos)
  noPermissions : permissions = [] → body["permissions".toList]? = none
  permissions : permissions ≠ [] →
    ∃ entries, body["permissions".toList]? = some (.object entries) ∧ Grants entries permissions
  fields : ∀ field ∈ body, field = "repositories".toList ∨ field = "permissions".toList

/-! ## One permission -/

/-- The bytes of a name, as numbers. -/
theorem isPermissionByte_iff (b : UInt8) : isPermissionByte b = true ↔
    (97 ≤ b.toNat ∧ b.toNat ≤ 122) ∨ (48 ≤ b.toNat ∧ b.toNat ≤ 57) ∨ b.toNat = 95 := by
  simp [isPermissionByte, UInt8.le_iff_toNat_le, ← UInt8.toNat_inj, or_assoc]

/-- The characters of a name, as numbers. -/
theorem isPermissionChar_iff (c : Char) : IsPermissionChar c ↔
    (97 ≤ c.toNat ∧ c.toNat ≤ 122) ∨ (48 ≤ c.toNat ∧ c.toNat ≤ 57) ∨ c.toNat = 95 := by
  simp [IsPermissionChar, Char.le_def, UInt32.le_iff_toNat_le, Char.ext_iff, ← UInt32.toNat_inj]

/-- The code looks at bytes, but only one-byte characters pass its test. -/
theorem utf8EncodeChar_all (c : Char) :
    (String.utf8EncodeChar c).all isPermissionByte = true ↔ IsPermissionChar c := by
  rw [isPermissionChar_iff]
  obtain ⟨hlow, hbytes⟩ | ⟨hhigh, hne, hbytes⟩ := Str.utf8EncodeChar_cases c
  · rw [hbytes, List.all_cons, List.all_nil, Bool.and_true, isPermissionByte_iff,
      UInt8.toNat_ofNat', Nat.mod_eq_of_lt (by omega)]
  · obtain ⟨b, rest, hb⟩ := List.exists_cons_of_ne_nil hne
    have hhead := hbytes b (hb ▸ List.mem_cons_self)
    rw [hb, List.all_cons, Bool.and_eq_true, isPermissionByte_iff]
    omega

/-- A name whose bytes pass has only such characters. -/
theorem utf8_all (s : Str) :
    (Str.utf8 s).all isPermissionByte = true ↔ ∀ c ∈ s, IsPermissionChar c := by
  induction s with
  | nil => simp [Str.utf8]
  | cons c s ih =>
    rw [Str.utf8, List.flatMap_cons, List.all_append, Bool.and_eq_true, utf8EncodeChar_all,
      List.forall_mem_cons, ← ih, Str.utf8]

/-- A permission can be read in one way only. -/
theorem IsPermission.unique {p name level name' level' : Str} (h : IsPermission p name level)
    (h' : IsPermission p name' level') : name = name' ∧ level = level' := by
  obtain ⟨a, b, hp, ha, rfl, rfl⟩ := h.parts
  obtain ⟨a', b', hp', ha', rfl, rfl⟩ := h'.parts
  have hsplit := Str.splitOnce_append (b := b) ha
  rw [← hp, hp', Str.splitOnce_append ha'] at hsplit
  cases hsplit
  exact ⟨rfl, rfl⟩

variable {perms : Permissions} {p name level : Str} {list : List Str}

/-- A permission of a new name is added. -/
theorem addPermission_ok (h : IsPermission p name level) (hnew : name ∉ perms) :
    addPermission perms p = .ok (perms.insert name level) := by
  obtain ⟨a, b, rfl, ha, hname, hlevel⟩ := h.parts
  have hchars : (Str.utf8 name).all isPermissionByte = true := (utf8_all name).mpr h.chars
  have hread : ¬(level ≠ "read".toList ∧ level ≠ "write".toList) := by
    have := h.level
    tauto
  rw [addPermission, Str.splitOnce_append ha]
  dsimp only
  rw [hname, hlevel, if_neg (by simp [h.nonempty, hchars]), if_neg hread,
    Std.ExtTreeMap.getElem?_eq_none hnew]

/-- What is no permission, or has a name that is taken, is an error. -/
theorem addPermission_bails (h : ∀ name level, IsPermission p name level → name ∈ perms) :
    ∃ msg, addPermission perms p = bail msg := by
  unfold addPermission
  split
  · exact ⟨_, rfl⟩
  -- with an equals sign, a good name and a good level it is one
  rename_i a b hsplit
  obtain ⟨rfl, ha⟩ := Str.splitOnce_eq_some hsplit
  dsimp only
  split
  · exact ⟨_, rfl⟩
  rename_i hname
  split
  · exact ⟨_, rfl⟩
  rename_i hlevel
  simp only [not_or, Bool.not_eq_true', Bool.not_eq_false, utf8_all] at hname
  have hperm : IsPermission (a ++ '=' :: b) (Str.trim a) (Str.trim b) :=
    ⟨⟨a, b, rfl, ha, rfl, rfl⟩, hname.1, hname.2, by tauto⟩
  have hmem := h _ _ hperm
  rw [Std.ExtTreeMap.getElem?_eq_some_getElem hmem]
  exact ⟨_, rfl⟩

/-! ## All of them -/

/-- The permissions can be added to what is there. -/
structure Accepts (perms : Permissions) (list : List Str) : Prop where
  each : ∀ p ∈ list, ∃ name level, IsPermission p name level ∧ name ∉ perms
  distinct : list.Pairwise fun p q => ¬SameName p q

/-- The names after an insertion. -/
theorem mem_insert_iff {name' : Str} :
    name' ∈ perms.insert name level ↔ name = name' ∨ name' ∈ perms := by
  rw [Std.ExtTreeMap.mem_insert, Std.LawfulEqCmp.compare_eq_iff_eq]

/-- A list is accepted where its head is a new permission and its tail is
accepted after it. -/
theorem accepts_cons : Accepts perms (p :: list) ↔ ∃ name level,
    IsPermission p name level ∧ name ∉ perms ∧ Accepts (perms.insert name level) list := by
  constructor
  · rintro ⟨heach, hdistinct⟩
    obtain ⟨⟨name, level, hp, hnew⟩, hrest⟩ := List.forall_mem_cons.mp heach
    obtain ⟨hhead, htail⟩ := List.pairwise_cons.mp hdistinct
    refine ⟨name, level, hp, hnew, fun q hq => ?_, htail⟩
    obtain ⟨name', level', hq', hnew'⟩ := hrest q hq
    refine ⟨name', level', hq', ?_⟩
    rw [mem_insert_iff, not_or]
    refine ⟨?_, hnew'⟩
    rintro rfl
    exact hhead q hq ⟨name, level, level', hp, hq'⟩
  · rintro ⟨name, level, hp, hnew, heach, hdistinct⟩
    refine ⟨List.forall_mem_cons.mpr ⟨⟨name, level, hp, hnew⟩, fun q hq => ?_⟩,
      List.pairwise_cons.mpr ⟨fun q hq => ?_, hdistinct⟩⟩
    · obtain ⟨name', level', hq', hnew'⟩ := heach q hq
      rw [mem_insert_iff, not_or] at hnew'
      exact ⟨name', level', hq', hnew'.2⟩
    · rintro ⟨same, level₁, level₂, hp', hq'⟩
      obtain ⟨name', level', hq'', hnew'⟩ := heach q hq
      rw [mem_insert_iff, not_or] at hnew'
      exact hnew'.1 ((hp.unique hp').1.trans (hq'.unique hq'').1)

/-- The entries after the permissions are those before and one for each. -/
structure Adds (perms : Permissions) (list : List Str) (entries : Permissions) : Prop where
  entry : ∀ name level, entries[name]? = some level ↔
    perms[name]? = some level ∨ ∃ p ∈ list, IsPermission p name level
  size : entries.size = perms.size + list.length

/-- What the tail adds to the head is what the list adds. -/
theorem Adds.cons {entries : Permissions} (hp : IsPermission p name level) (hnew : name ∉ perms)
    (h : Adds (perms.insert name level) list entries) : Adds perms (p :: list) entries := by
  refine ⟨fun name' level' => ?_, ?_⟩
  · rw [h.entry, Std.ExtTreeMap.getElem?_insert]
    by_cases hname : name = name'
    · subst hname
      have hlevel : IsPermission p name level' ↔ level = level' := by
        refine ⟨fun hp' => (hp.unique hp').2, ?_⟩
        rintro rfl
        exact hp
      simp [Std.ExtTreeMap.getElem?_eq_none hnew, hlevel]
    · have hother : ¬IsPermission p name' level' := fun hp' => hname (hp.unique hp').1
      simp [hname, hother]
  · have hsize : (perms.insert name level).size = perms.size + 1 := by
      rw [Std.ExtTreeMap.size_insert]
      exact if_neg hnew
    rw [h.size, hsize, List.length_cons]
    omega

/-- The loop adds what is accepted and bails at anything else. -/
theorem addPermissions (perms : Permissions) (list : List Str) :
    (Accepts perms list ∧ ∃ entries, list.foldlM addPermission perms = .ok entries ∧
      Adds perms list entries) ∨
    (¬Accepts perms list ∧ ∃ msg, list.foldlM addPermission perms = bail msg) := by
  induction list generalizing perms with
  | nil =>
    left
    exact ⟨⟨by simp, .nil⟩, perms, rfl, by simp, rfl⟩
  | cons p list ih =>
    rw [List.foldlM_cons, accepts_cons]
    by_cases h : ∃ name level, IsPermission p name level ∧ name ∉ perms
    · obtain ⟨name, level, hp, hnew⟩ := h
      -- the head can be added in one way
      have hsame : (∃ name level, IsPermission p name level ∧ name ∉ perms ∧
          Accepts (perms.insert name level) list) ↔ Accepts (perms.insert name level) list := by
        constructor
        · rintro ⟨name', level', hp', -, haccepts⟩
          obtain ⟨rfl, rfl⟩ := hp.unique hp'
          exact haccepts
        · exact fun haccepts => ⟨name, level, hp, hnew, haccepts⟩
      rw [hsame, addPermission_ok hp hnew, result_ok_bind]
      obtain ⟨haccepts, entries, hrun, hadds⟩ | hbails := ih (perms.insert name level)
      · exact .inl ⟨haccepts, entries, hrun, hadds.cons hp hnew⟩
      · exact .inr hbails
    · right
      obtain ⟨msg, hmsg⟩ := @addPermission_bails perms p fun name level hp =>
        by_contra fun hnew => h ⟨name, level, hp, hnew⟩
      refine ⟨fun ⟨name, level, hp, hnew, _⟩ => h ⟨name, level, hp, hnew⟩, msg, ?_⟩
      rw [hmsg]
      rfl

/-! ## The body -/

/-- The loop over the repositories passes or finds a blank one. -/
theorem checkRepositories (repos : List Str) :
    ((∀ r ∈ repos, Str.trim r ≠ []) ∧ repos.forM checkRepository = .ok ()) ∨
    ((∃ r ∈ repos, Str.trim r = []) ∧ ∃ msg, repos.forM checkRepository = bail msg) := by
  induction repos with
  | nil => exact .inl ⟨by simp, rfl⟩
  | cons r repos ih =>
    have hcons : (r :: repos).forM checkRepository =
        checkRepository r >>= fun _ => repos.forM checkRepository := rfl
    rw [hcons, checkRepository]
    by_cases hr : Str.trim r = []
    · rw [if_pos hr]
      exact .inr ⟨⟨r, List.mem_cons_self, hr⟩, _, rfl⟩
    · rw [if_neg hr, result_ok_bind]
      obtain ⟨hnone, hrun⟩ | ⟨⟨r', hmem, hblank⟩, hrun⟩ := ih
      · exact .inl ⟨List.forall_mem_cons.mpr ⟨hr, hnone⟩, hrun⟩
      · exact .inr ⟨⟨r', .tail r hmem, hblank⟩, hrun⟩

/-- Nothing is there at first, so only the list can conflict with itself. -/
theorem accepts_empty : Accepts ∅ list ↔
    (∀ p ∈ list, ∃ name level, IsPermission p name level) ∧
      ¬∃ p q, [p, q].Sublist list ∧ SameName p q := by
  have hpairs : (¬∃ p q, [p, q].Sublist list ∧ SameName p q) ↔
      list.Pairwise fun p q => ¬SameName p q := by
    rw [List.pairwise_iff_forall_sublist]
    push Not
    rfl
  rw [hpairs]
  constructor
  · rintro ⟨heach, hdistinct⟩
    refine ⟨fun p hp => ?_, hdistinct⟩
    obtain ⟨name, level, h, -⟩ := heach p hp
    exact ⟨name, level, h⟩
  · rintro ⟨heach, hdistinct⟩
    refine ⟨fun p hp => ?_, hdistinct⟩
    obtain ⟨name, level, h⟩ := heach p hp
    exact ⟨name, level, h, Std.ExtTreeMap.not_mem_empty⟩

/-- What is refused is a blank repository or a list that is not accepted. -/
theorem refused_iff (repos : List Str) :
    Refused repos list ↔ (∃ r ∈ repos, Str.trim r = []) ∨ ¬Accepts ∅ list := by
  rw [accepts_empty, Refused, not_and_or, not_not]
  push Not
  rfl

def withRepositories (repos : List Str) (body : RequestBody) : RequestBody :=
  if repos = [] then body else body.insert "repositories".toList (.strings repos)

def withPermissions (permissions : List Str) (entries : Permissions) (body : RequestBody) :
    RequestBody :=
  if permissions = [] then body else body.insert "permissions".toList (.object entries)

/-- The two fields of a body. -/
theorem getElem?_with (repos permissions : List Str) (entries : Permissions) (field : Str) :
    (withPermissions permissions entries (withRepositories repos ∅))[field]? =
      if permissions ≠ [] ∧ field = "permissions".toList then some (.object entries)
      else if repos ≠ [] ∧ field = "repositories".toList then some (.strings repos)
      else none := by
  unfold withPermissions withRepositories
  by_cases hperms : permissions = []
  · by_cases hrepos : repos = []
    · simp only [hperms, hrepos, if_true, ne_eq, not_true_eq_false, false_and, if_false]
      exact Std.ExtTreeMap.getElem?_empty
    · simp only [hperms, hrepos, if_true, if_false, ne_eq, not_true_eq_false, not_false_eq_true,
        false_and, true_and, Std.ExtTreeMap.getElem?_insert, Std.LawfulEqCmp.compare_eq_iff_eq,
        Std.ExtTreeMap.getElem?_empty, eq_comm (a := field)]
  · by_cases hrepos : repos = []
    · simp only [hperms, hrepos, if_true, if_false, ne_eq, not_true_eq_false, not_false_eq_true,
        false_and, true_and, Std.ExtTreeMap.getElem?_insert, Std.LawfulEqCmp.compare_eq_iff_eq,
        Std.ExtTreeMap.getElem?_empty, eq_comm (a := field)]
    · simp only [hperms, hrepos, if_false, ne_eq, not_false_eq_true,
        true_and, Std.ExtTreeMap.getElem?_insert, Std.LawfulEqCmp.compare_eq_iff_eq,
        Std.ExtTreeMap.getElem?_empty, eq_comm (a := field)]

/-- A body with all the repositories and the granted permissions asks for them. -/
theorem asks_with {repos permissions : List Str} {entries : Permissions}
    (h : Grants entries permissions) :
    Asks (withPermissions permissions entries (withRepositories repos ∅)) repos permissions := by
  have hne : "repositories".toList ≠ "permissions".toList := by decide
  refine ⟨?_, fun hnil => ?_, fun hsome => ⟨entries, ?_, h⟩, fun field hfield => ?_⟩
  · rw [getElem?_with, if_neg fun hfield => hne hfield.2]
    by_cases hrepos : repos = []
    · rw [if_pos hrepos, if_neg fun hfield => hfield.1 hrepos]
    · rw [if_neg hrepos, if_pos ⟨hrepos, rfl⟩]
  · rw [getElem?_with, if_neg fun hfield => hfield.1 hnil, if_neg fun hfield => hne hfield.2.symm]
  · rw [getElem?_with, if_pos ⟨hsome, rfl⟩]
  · have hvalue := Std.ExtTreeMap.getElem?_eq_some_getElem hfield
    rw [getElem?_with] at hvalue
    split at hvalue
    · rename_i hperms
      exact .inr hperms.2
    split at hvalue
    · rename_i hrepos
      exact .inl hrepos.2
    · cases hvalue

/-- The body is empty where nothing is asked for. -/
theorem isEmpty_with (repos permissions : List Str) (entries : Permissions) :
    (withPermissions permissions entries (withRepositories repos ∅)).isEmpty = true ↔
      repos = [] ∧ permissions = [] := by
  unfold withPermissions withRepositories
  by_cases hrepos : repos = []
  · by_cases hperms : permissions = []
    · simp [hrepos, hperms]
    · simp [hrepos, hperms]
  · by_cases hperms : permissions = []
    · simp [hrepos, hperms]
    · simp [hrepos, hperms]

/-- The empty lists need no test of their own. -/
theorem buildTokenRequestBody_eq (repos permissions : List Str) :
    buildTokenRequestBody repos permissions =
      repos.forM checkRepository >>= fun _ =>
      permissions.foldlM addPermission ∅ >>= fun entries =>
      let body := withPermissions permissions entries (withRepositories repos ∅)
      .ok (if body.isEmpty then none else some body) := by
  unfold buildTokenRequestBody withPermissions withRepositories
  by_cases hrepos : repos = []
  · subst hrepos
    by_cases hperms : permissions = []
    · subst hperms
      rfl
    · simp only [if_true, if_neg hperms, result_ok_bind]
      rfl
  · by_cases hperms : permissions = []
    · subst hperms
      simp only [if_true, if_neg hrepos, result_ok_bind]
      rfl
    · simp only [if_neg hrepos, if_neg hperms, result_ok_bind]

/-- A body is left out only where nothing is asked for, refused is what cannot
be asked for as it stands, and otherwise the body asks for it all. -/
theorem buildTokenRequestBody_exact (repos permissions : List Str) :
    (buildTokenRequestBody repos permissions = .ok none ↔ repos = [] ∧ permissions = []) ∧
    ((∃ msg, buildTokenRequestBody repos permissions = bail msg) ↔ Refused repos permissions) ∧
    ((∃ body, buildTokenRequestBody repos permissions = .ok (some body) ∧
      Asks body repos permissions) ↔
        ¬Refused repos permissions ∧ ¬(repos = [] ∧ permissions = [])) := by
  rw [refused_iff, buildTokenRequestBody_eq]
  obtain ⟨hblank, hrepos⟩ | ⟨hblank, msg, hrepos⟩ := checkRepositories repos
  · have hblank' : ¬∃ r ∈ repos, Str.trim r = [] := fun ⟨r, hr, h⟩ => hblank r hr h
    obtain ⟨haccepts, entries, hperms, hadds⟩ | ⟨haccepts, msg, hperms⟩ :=
      addPermissions ∅ permissions
    · have hgrants : Grants entries permissions :=
        ⟨fun name level => by simp [hadds.entry], by simp [hadds.size]⟩
      have hasks := @asks_with repos permissions entries hgrants
      rw [hrepos, hperms, result_ok_bind, result_ok_bind]
      dsimp only
      by_cases hempty : repos = [] ∧ permissions = []
      · rw [if_pos ((isEmpty_with repos permissions entries).mpr hempty)]
        obtain ⟨rfl, rfl⟩ := hempty
        simp [haccepts, bail]
      · rw [if_neg (mt (isEmpty_with repos permissions entries).mp hempty)]
        simp [hblank', haccepts, hempty, bail, hasks]
    · have hsome : permissions ≠ [] := by
        rintro rfl
        cases hperms
      rw [hrepos, hperms]
      simp [haccepts, hsome, bail]
  · have hsome : repos ≠ [] := by
      rintro rfl
      cases hrepos
    rw [hrepos]
    simp [hblank, hsome, bail]

end HearthVault
