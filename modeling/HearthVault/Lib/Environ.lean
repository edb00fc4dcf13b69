/-
HearthVault.Lib.Environ — the environment that a process hands to a child.

`vars_os` takes the entries of the process's own environment apart. `Command`
captures them in a map and puts the variables that are set for the child over
them (`captureEnv`); `construct_envp` writes the map as entries `name=value`
and refuses one with a NUL. The child finds a variable by what stands before
the first equals sign of an entry (`getEnv`), so it has none without a name,
and none with an equals sign in its name.

Both directions are here: what is set is found by the child where its name is
one that an entry can carry (`getEnv_constructEnvp`), and what the child finds
has such a name (`CarriedVar`).
-/
import HearthVault.Lib.Bindings
import HearthVault.Lib.Text

namespace HearthVault.Environ

open Bindings

/-! ## Entries -/

/-- The character that ends an entry in memory. -/
def nul : Char :=
  '\x00'

/-- An entry of an environment. -/
def entry (var : Str × Str) : Str :=
  var.1 ++ '=' :: var.2

/-- One step of `env::vars_os`: an equals sign at the start belongs to the
name, and an entry without another one is passed over. -/
def parseEntry : Str → Option (Str × Str)
  | [] => none
  | c :: s => (Str.splitOnce '=' s).map fun (name, value) => (c :: name, value)

/-- `env::vars_os`. -/
def varsOs (entries : List Str) : List (Str × Str) :=
  entries.filterMap parseEntry

/-- `CommandEnv::capture`: what is inherited, and one `Command::env` after the
other. -/
def captureEnv (inherited : List Str) (vars : List (Str × Str)) :
    Std.ExtTreeMap Str Str compare :=
  (varsOs inherited ++ vars).foldl (fun env var => env.insert var.1 var.2) ∅

/-- `construct_envp`: the entries of the child, none if one of them has a NUL. -/
def constructEnvp (env : Std.ExtTreeMap Str Str compare) : Option (List Str) :=
  let entries := env.toList.map entry
  if entries.any fun e => e.contains nul then none else some entries

/-- What a process finds under a name in its environment. -/
def getEnv (entries : List Str) (name : Str) : Option Str :=
  if name = [] then none else first (entries.filterMap (Str.splitOnce '=')) name

example : getEnv ["=X=1".toList, "A=2".toList, "A=3".toList, "B=C=4".toList] "A".toList =
    some "2".toList := by decide

/-! ## Names -/

/-- A variable that an environment can carry. -/
structure CarriedVar (name value : Str) : Prop where
  nonempty : name ≠ []
  noEquals : '=' ∉ name
  noNul : nul ∉ entry (name, value)

/-- A name has no equals sign but at its start, where `vars_os` leaves it. -/
theorem parseEntry_eq_some {e : Str} {var : Str × Str} (h : parseEntry e = some var) :
    e = entry var ∧ '=' ∉ var.1.tail := by
  cases e with
  | nil => cases h
  | cons c s =>
    obtain ⟨⟨name, value⟩, hsplit, rfl⟩ := Option.map_eq_some_iff.mp h
    obtain ⟨rfl, hname⟩ := Str.splitOnce_eq_some hsplit
    exact ⟨rfl, hname⟩

/-- An entry under its own name, if that is a name. -/
theorem splitOnce_entry (var : Str × Str) (h : '=' ∉ var.1.tail) :
    Str.splitOnce '=' (entry var) = some var ∨
      '=' ∈ var.1 ∧ ∃ value, Str.splitOnce '=' (entry var) = some ([], value) := by
  obtain ⟨name, value⟩ := var
  by_cases hname : '=' ∈ name
  · cases name with
    | nil => cases hname
    | cons c rest =>
      have hc : c = '=' := ((List.mem_cons.mp hname).resolve_right h).symm
      subst hc
      exact .inr ⟨hname, rest ++ '=' :: value, by simp [entry, Str.splitOnce]⟩
  · exact .inl (Str.splitOnce_append hname)

/-- The entries of variables are looked up as the variables are. -/
theorem first_entries {vars : List (Str × Str)} (hvars : ∀ var ∈ vars, '=' ∉ var.1.tail)
    {name : Str} (hne : name ≠ []) (hname : '=' ∉ name) :
    first ((vars.map entry).filterMap (Str.splitOnce '=')) name = first vars name := by
  induction vars with
  | nil => rfl
  | cons var rest ih =>
    obtain ⟨hvar, hrest⟩ := List.forall_mem_cons.mp hvars
    rw [List.map_cons, first_cons]
    obtain hsplit | ⟨hequals, value, hsplit⟩ := splitOnce_entry var hvar
    · rw [List.filterMap_cons_some hsplit, first_cons, ih hrest]
    · have hother : var.1 ≠ name := fun h => hname (h ▸ hequals)
      rw [List.filterMap_cons_some hsplit, first_cons, if_neg (Ne.symm hne), if_neg hother,
        ih hrest]

/-- What is found under a name stands in an entry of that name. -/
theorem getEnv_eq_some {entries : List Str} {name value : Str}
    (h : getEnv entries name = some value) :
    name ≠ [] ∧ '=' ∉ name ∧ entry (name, value) ∈ entries := by
  unfold getEnv at h
  split at h
  · cases h
  · rename_i hne
    obtain ⟨e, he, hsplit⟩ := List.mem_filterMap.mp (first_eq_some_mem h)
    obtain ⟨rfl, hname⟩ := Str.splitOnce_eq_some hsplit
    exact ⟨hne, hname, he⟩

/-- The last entry of a name is the first from the end. -/
theorem getEnv_reverse {vars : List (Str × Str)} (hvars : ∀ var ∈ vars, '=' ∉ var.1) {name : Str}
    (hne : name ≠ []) (hname : '=' ∉ name) :
    getEnv (vars.map entry).reverse name = last vars name := by
  rw [getEnv, if_neg hne, ← List.map_reverse, first_entries ?_ hne hname, last]
  intro var hvar hmem
  exact hvars var (List.mem_reverse.mp hvar) (List.mem_of_mem_tail hmem)

/-! ## The child -/

section

variable {inherited entries : List Str} {vars : List (Str × Str)} {name value : Str}

theorem constructEnvp_eq_some {env : Std.ExtTreeMap Str Str compare} :
    constructEnvp env = some entries ↔
      (∀ var ∈ env.toList, nul ∉ entry var) ∧ env.toList.map entry = entries := by
  have hany : ((env.toList.map entry).any fun e => e.contains nul) = true ↔
      ¬∀ var ∈ env.toList, nul ∉ entry var := by simp
  unfold constructEnvp
  dsimp only
  by_cases hnul : ∀ var ∈ env.toList, nul ∉ entry var
  · rw [if_neg fun h => hany.mp h hnul, Option.some_inj]
    exact (and_iff_right hnul).symm
  · rw [if_pos (hany.mpr hnul)]
    exact iff_of_false nofun fun h => hnul h.1

/-- What is set last is captured, and what is inherited where nothing is set. -/
theorem getElem?_captureEnv (inherited : List Str) (vars : List (Str × Str)) (name : Str) :
    (captureEnv inherited vars)[name]? = last (varsOs inherited ++ vars) name := by
  rw [captureEnv, getElem?_foldl_insert]
  simp

/-- Every variable that is captured is inherited or set. -/
theorem mem_captureEnv {var : Str × Str} (h : var ∈ (captureEnv inherited vars).toList) :
    var ∈ varsOs inherited ∨ var ∈ vars := by
  have hget := Std.ExtTreeMap.mem_toList_iff_getElem?_eq_some.mp h
  rw [getElem?_captureEnv] at hget
  exact List.mem_append.mp (last_eq_some_mem hget)

/-- **What is set is found**: variables that an environment can carry are
handed to the child, and it finds the last of each name. -/
theorem getEnv_constructEnvp (hinherited : ∀ e ∈ inherited, nul ∉ e)
    (hvars : ∀ var ∈ vars, CarriedVar var.1 var.2) :
    ∃ entries, constructEnvp (captureEnv inherited vars) = some entries ∧
      ∀ name value, last vars name = some value → getEnv entries name = some value := by
  have hcaptured : ∀ var ∈ (captureEnv inherited vars).toList,
      nul ∉ entry var ∧ '=' ∉ var.1.tail := by
    intro var hvar
    obtain h | h := mem_captureEnv hvar
    · obtain ⟨e, he, hparse⟩ := List.mem_filterMap.mp h
      obtain ⟨rfl, htail⟩ := parseEntry_eq_some hparse
      exact ⟨hinherited _ he, htail⟩
    · exact ⟨(hvars var h).noNul, fun hmem => (hvars var h).noEquals (List.mem_of_mem_tail hmem)⟩
  refine ⟨_, constructEnvp_eq_some.mpr ⟨fun var hvar => (hcaptured var hvar).1, rfl⟩, ?_⟩
  intro name value hlast
  have hname := hvars _ (last_eq_some_mem hlast)
  have hget : (captureEnv inherited vars)[name]? = some value := by
    rw [getElem?_captureEnv, last, List.reverse_append, first_append]
    exact Option.or_eq_some_iff.mpr (.inl hlast)
  rw [getEnv, if_neg hname.nonempty, first_entries (fun var hvar => (hcaptured var hvar).2)
    hname.nonempty hname.noEquals, first_toList, hget]

/-- **What is found can be carried.** -/
theorem CarriedVar.of_getEnv {env : Std.ExtTreeMap Str Str compare}
    (henv : constructEnvp env = some entries) (h : getEnv entries name = some value) :
    CarriedVar name value := by
  obtain ⟨hnul, rfl⟩ := constructEnvp_eq_some.mp henv
  obtain ⟨hne, hname, he⟩ := getEnv_eq_some h
  obtain ⟨var, hvar, heq⟩ := List.mem_map.mp he
  exact ⟨hne, hname, heq ▸ hnul var hvar⟩

end

end HearthVault.Environ
