/-
HearthVault.Scan.SpanTheorems — each secret of a line is reported once, under
the first rule whose gates accept it.

The byte map of `scan_files` is related to intervals: `Marks` says that the
bytes claimed are those of the spans reported so far, and with it one match
is one step of a greedy selection (`scanCaptures_offer`). The matches of all
rules, in order, are the candidates of the line; what is reported of it is
the selection among them (`scanLine_eq_select`).
-/
import HearthVault.Lib.Greedy
import HearthVault.Scan.Staged

namespace HearthVault

open Files

/-! ## Candidates -/

/-- A match of a rule. -/
structure Candidate where
  rule : Rule
  caps : Captures

/-- The secret group of the match, or the whole of it. -/
def Candidate.secret (c : Candidate) : Group :=
  c.caps.extractWithSpan

/-- The spans of two matches have a byte in common. -/
def Candidate.Overlaps (c d : Candidate) : Prop :=
  max c.secret.start d.secret.start < min c.secret.stop d.secret.stop

instance : DecidableRel Candidate.Overlaps :=
  fun c d => inferInstanceAs (Decidable (max c.secret.start d.secret.start < _))

theorem Candidate.overlaps_iff {c d : Candidate} : c.Overlaps d ↔
    ∃ i, (c.secret.start ≤ i ∧ i < c.secret.stop) ∧ d.secret.start ≤ i ∧ i < d.secret.stop := by
  unfold Candidate.Overlaps
  constructor
  · intro h
    exact ⟨max c.secret.start d.secret.start, by omega, by omega⟩
  · rintro ⟨i, hc, hd⟩
    omega

/-- The match passes the gates of its rule. -/
def Candidate.Passes (scanner : Scanner) (c : Candidate) : Prop :=
  scanner.reports c.rule c.secret.text = true

instance (scanner : Scanner) : DecidablePred (Candidate.Passes scanner) :=
  fun c => inferInstanceAs (Decidable (scanner.reports c.rule c.secret.text = true))

/-- How a match is reported. -/
def Candidate.finding (path : Path) (lineNumber : Nat) (c : Candidate) : ScanFinding where
  path := path
  lineNumber := lineNumber
  suggestedKey := suggestedKeyFor c.rule.id path (c.caps.keyname.map Group.text)
  ruleId := c.rule.id
  redacted := redact c.secret.text

/-- The matches that a rule has in a line of a file. -/
def Rule.candidates (path : Path) (line : Str) (rule : Rule) : List Candidate :=
  if rule.id = "dotenv-assignment".toList ∧ !isDotenvStyle path then []
  else (rule.captures line).map fun caps => ⟨rule, caps⟩

/-- The matches of all rules, in their order. -/
def Scanner.candidates (scanner : Scanner) (path : Path) (line : Str) : List Candidate :=
  scanner.rules.flatMap (Rule.candidates path line)

theorem Rule.candidates_inBounds {path : Path} {line : Str} {rule : Rule} {c : Candidate}
    (h : c ∈ rule.candidates path line) :
    c.secret.start ≤ c.secret.stop ∧ c.secret.stop ≤ (Str.utf8 line).length := by
  unfold Rule.candidates at h
  split at h
  · cases h
  · obtain ⟨caps, hcaps, rfl⟩ := List.mem_map.mp h
    exact rule.inBounds line caps hcaps

/-! ## The byte map -/

theorem any_sliceOf {claimed : List Bool} {start stop : Nat} :
    ((claimed.drop start).take (stop - start)).any id = true ↔
      ∃ i, (start ≤ i ∧ i < stop) ∧ claimed[i]? = some true := by
  rw [List.any_eq_true]
  constructor
  · rintro ⟨b, hb, rfl⟩
    obtain ⟨j, hj⟩ := List.mem_iff_getElem?.mp hb
    rw [List.getElem?_take] at hj
    split at hj
    · rw [List.getElem?_drop] at hj
      exact ⟨start + j, by omega, hj⟩
    · cases hj
  · rintro ⟨i, hi, hget⟩
    refine ⟨true, List.mem_iff_getElem?.mpr ⟨i - start, ?_⟩, rfl⟩
    rw [List.getElem?_take, if_pos (by omega), List.getElem?_drop,
      show start + (i - start) = i by omega, hget]

theorem getElem?_claim {claimed : List Bool} {start stop : Nat} (hstart : start ≤ stop)
    (hstop : stop ≤ claimed.length) (i : Nat) : (claim claimed start stop)[i]? = some true ↔
      (start ≤ i ∧ i < stop) ∨ claimed[i]? = some true := by
  have hfront : (claimed.take start).length = start := by
    rw [List.length_take]
    omega
  have hmid : (claimed.take start ++ List.replicate (stop - start) true).length = stop := by
    rw [List.length_append, hfront, List.length_replicate]
    omega
  unfold claim
  rw [List.getElem?_append, hmid]
  split
  · rw [List.getElem?_append, hfront]
    split
    · rw [List.getElem?_take, if_pos (by omega)]
      simp only [show ¬ (start ≤ i ∧ i < stop) by omega, false_or]
    · rw [List.getElem?_replicate, if_pos (by omega)]
      simp only [show start ≤ i ∧ i < stop by omega, true_or, and_self]
  · rw [List.getElem?_drop, show stop + (i - stop) = i by omega]
    simp only [show ¬ (start ≤ i ∧ i < stop) by omega, false_or]

/-- The state after `kept` was reported: its bytes are claimed, and no other. -/
structure LineState.Marks (path : Path) (lineNumber : Nat) (line : Str) (kept : List Candidate)
    (state : LineState) : Prop where
  bytes : state.claimed.length = (Str.utf8 line).length
  marked : ∀ i, state.claimed[i]? = some true ↔
    ∃ k ∈ kept, k.secret.start ≤ i ∧ i < k.secret.stop
  findings : state.findings = kept.map (Candidate.finding path lineNumber)

section

variable (scanner : Scanner) {path : Path} {lineNumber : Nat} {line : Str}

/-- The byte test asks whether a span that was reported overlaps. -/
theorem LineState.Marks.any_iff {kept : List Candidate} {state : LineState}
    (h : state.Marks path lineNumber line kept) (c : Candidate) :
    ((state.claimed.drop c.secret.start).take (c.secret.stop - c.secret.start)).any id = true ↔
      ∃ k ∈ kept, k.Overlaps c := by
  rw [any_sliceOf]
  constructor
  · rintro ⟨i, hi, hget⟩
    obtain ⟨k, hk, hspan⟩ := (h.marked i).mp hget
    exact ⟨k, hk, Candidate.overlaps_iff.mpr ⟨i, hspan, hi⟩⟩
  · rintro ⟨k, hk, hover⟩
    obtain ⟨i, hspan, hi⟩ := Candidate.overlaps_iff.mp hover
    exact ⟨i, hi, (h.marked i).mpr ⟨k, hk, hspan⟩⟩

/-- A span is claimed for the match that is reported. -/
theorem LineState.Marks.claim {kept : List Candidate} {state : LineState}
    (h : state.Marks path lineNumber line kept) {c : Candidate}
    (hstart : c.secret.start ≤ c.secret.stop) (hstop : c.secret.stop ≤ state.claimed.length) :
    LineState.Marks path lineNumber line (kept ++ [c])
      ⟨HearthVault.claim state.claimed c.secret.start c.secret.stop,
        state.findings ++ [c.finding path lineNumber]⟩ where
  bytes := (length_claim hstart hstop).trans h.bytes
  marked i := by
    rw [getElem?_claim hstart hstop, h.marked]
    simp only [List.mem_append, List.mem_singleton]
    constructor
    · rintro (hi | ⟨k, hk, hi⟩)
      · exact ⟨c, .inr rfl, hi⟩
      · exact ⟨k, .inl hk, hi⟩
    · rintro ⟨k, hk | rfl, hi⟩
      · exact .inr ⟨k, hk, hi⟩
      · exact .inl hi
  findings := by
    rw [h.findings, List.map_append, List.map_singleton]

/-- **One match** is offered to the selection. -/
theorem scanCaptures_offer {c : Candidate} (hstart : c.secret.start ≤ c.secret.stop)
    (hstop : c.secret.stop ≤ (Str.utf8 line).length) {kept : List Candidate} {state : LineState}
    (h : state.Marks path lineNumber line kept) : ∃ state',
      scanCaptures scanner path lineNumber c.rule c.caps state = some state' ∧
        state'.Marks path lineNumber line
          (Greedy.offer (Candidate.Passes scanner) Candidate.Overlaps kept c) := by
  have hany := h.any_iff c
  rw [← h.bytes] at hstop
  unfold Candidate.secret at hstart hstop hany
  unfold scanCaptures
  dsimp only
  rw [Nat.min_eq_left hstop, sliceOf, if_pos ⟨hstart, hstop⟩, Option.bind_eq_bind,
    Option.bind_some]
  unfold Greedy.offer
  split
  · rename_i htaken
    obtain ⟨k, hk, hover⟩ := hany.mp htaken
    rw [if_neg fun hfree => hfree.2 k hk hover]
    exact ⟨state, rfl, h⟩
  · rename_i hfree
    have hclear : ∀ k ∈ kept, ¬ k.Overlaps c := fun k hk hover => hfree (hany.mpr ⟨k, hk, hover⟩)
    split
    · rename_i hgate
      have hfails : ¬ c.Passes scanner := by
        simpa [Candidate.Passes, Candidate.secret] using hgate
      rw [if_neg fun hoffer => hfails hoffer.1]
      exact ⟨state, rfl, h⟩
    · rename_i hgate
      have hpasses : c.Passes scanner := by
        simpa [Candidate.Passes, Candidate.secret] using hgate
      rw [if_pos ⟨hpasses, hclear⟩]
      exact ⟨_, rfl, h.claim hstart hstop⟩

/-- A loop over matches within the line. -/
theorem foldlM_scanCaptures (l : List Candidate)
    (hl : ∀ c ∈ l, c.secret.start ≤ c.secret.stop ∧ c.secret.stop ≤ (Str.utf8 line).length) :
    ∀ {kept : List Candidate} {state : LineState}, state.Marks path lineNumber line kept →
      ∃ state', (l.foldlM (fun state c =>
          scanCaptures scanner path lineNumber c.rule c.caps state) state) = some state' ∧
        state'.Marks path lineNumber line
          (l.foldl (Greedy.offer (Candidate.Passes scanner) Candidate.Overlaps) kept) := by
  induction l with
  | nil => exact fun h => ⟨_, rfl, h⟩
  | cons c l ih =>
    intro kept state h
    obtain ⟨hstart, hstop⟩ := hl c List.mem_cons_self
    obtain ⟨state₁, hstep, h₁⟩ := scanCaptures_offer scanner hstart hstop h
    obtain ⟨state', hrest, h'⟩ := ih (fun d hd => hl d (.tail _ hd)) h₁
    refine ⟨state', ?_, h'⟩
    rw [List.foldlM_cons, hstep]
    exact hrest

/-- One rule, as a loop over its candidates. -/
theorem scanRule_eq (rule : Rule) (state : LineState) :
    scanRule scanner path lineNumber rule line state =
      (rule.candidates path line).foldlM (fun state c =>
        scanCaptures scanner path lineNumber c.rule c.caps state) state := by
  unfold scanRule Rule.candidates
  split
  · rfl
  · rw [List.foldlM_map]

theorem foldlM_scanRule (rules : List Rule) :
    ∀ {kept : List Candidate} {state : LineState}, state.Marks path lineNumber line kept →
      ∃ state', (rules.foldlM (fun state rule =>
          scanRule scanner path lineNumber rule line state) state) = some state' ∧
        state'.Marks path lineNumber line
          ((rules.flatMap (Rule.candidates path line)).foldl
            (Greedy.offer (Candidate.Passes scanner) Candidate.Overlaps) kept) := by
  induction rules with
  | nil => exact fun h => ⟨_, rfl, h⟩
  | cons rule rules ih =>
    intro kept state h
    obtain ⟨state₁, hstep, h₁⟩ := foldlM_scanCaptures scanner
      (rule.candidates path line) (fun c hc => Rule.candidates_inBounds hc) h
    obtain ⟨state', hrest, h'⟩ := ih h₁
    refine ⟨state', ?_, ?_⟩
    · rw [List.foldlM_cons, scanRule_eq, hstep]
      exact hrest
    · rw [List.flatMap_cons, List.foldl_append]
      exact h'

/-- **One line** reports the selection among its candidates. -/
theorem scanLine_eq_select (h : lineHasAllowComment line = false) :
    scanLine scanner path lineNumber line =
      some ((Greedy.select (Candidate.Passes scanner) Candidate.Overlaps
        (scanner.candidates path line)).map (Candidate.finding path lineNumber)) := by
  have hstart : LineState.Marks path lineNumber line []
      ⟨List.replicate (Str.utf8 line).length false, []⟩ :=
    { bytes := List.length_replicate
      marked := fun i => by simp [List.getElem?_replicate]
      findings := rfl }
  obtain ⟨state, hrun, hmarks⟩ := foldlM_scanRule scanner scanner.rules hstart
  unfold scanLine
  rw [h, if_neg (by simp), hrun, Option.bind_eq_bind, Option.bind_some, hmarks.findings]
  rfl

end

/-- **Each secret is reported once, under the first rule that accepts it.** A
scan never indexes out of range, and reports its files line by line. Of a
line without allow comment it reports matches that pass the gates of their
rules and whose spans are disjoint, in the order of the rules. At each
candidate, what is reported before it comes from the candidates before it;
the candidate itself is reported unless it fails its gates or its span
overlaps one of these. -/
theorem secrets_reported_once (scanner : Scanner) (path : Path) (lineNumber : Nat) (line : Str)
    (h : lineHasAllowComment line = false) :
    (∀ readToString files, scanFiles scanner readToString files = some (files.flatMap fun p =>
      fileReport scanner p (readToString p) (lineCount (readToString p)))) ∧
    ∃ reported, scanLine scanner path lineNumber line =
        some (reported.map (Candidate.finding path lineNumber)) ∧
      reported.Sublist (scanner.candidates path line) ∧
      reported.Pairwise (fun c d => ¬ c.Overlaps d) ∧
      (∀ c ∈ reported, c.Passes scanner) ∧
      ∀ before c after, scanner.candidates path line = before ++ c :: after →
        ∃ earlier here later, reported = earlier ++ here ++ later ∧
          earlier.Sublist before ∧ later.Sublist after ∧
          (here = [c] ∨ here = [] ∧ (c.Passes scanner → ∃ e ∈ earlier, e.Overlaps c)) := by
  refine ⟨scanFiles_eq scanner, _, scanLine_eq_select scanner h, Greedy.select_sublist _ _ _,
    Greedy.select_pairwise _ _ _, Greedy.select_ok _ _ _, fun before c after hsplit => ?_⟩
  obtain ⟨later, hlater, hselect⟩ :=
    Greedy.select_split (Candidate.Passes scanner) Candidate.Overlaps before after c
  rw [hsplit, hselect]
  unfold Greedy.offer
  split
  · exact ⟨_, [c], later, rfl, Greedy.select_sublist _ _ before, hlater, .inl rfl⟩
  · rename_i hrefused
    refine ⟨_, [], later, by rw [List.append_nil], Greedy.select_sublist _ _ before, hlater,
      .inr ⟨rfl, fun hpass => ?_⟩⟩
    by_contra hfree
    exact hrefused ⟨hpass, fun t ht hover => hfree ⟨t, ht, hover⟩⟩

/-- A rule that matches a whole line by its first characters. -/
def prefixRule (id start : Str) : Rule where
  id := id
  captures line :=
    if start.isPrefixOf line then [⟨⟨line, 0, (Str.utf8 line).length⟩, none, none⟩] else []
  lowEntropy _ := false
  inBounds line caps hcaps := by
    split at hcaps
    · rw [List.mem_singleton.mp hcaps]
      exact ⟨Nat.zero_le _, le_rfl⟩
    · cases hcaps

/-- The rules `anthropic-key` and `openai-key`, whose prefixes overlap. -/
def overlappingRules : Scanner where
  rules := [prefixRule "anthropic-key".toList "sk-ant-".toList,
    prefixRule "openai-key".toList "sk-".toList]
  isPlaceholder _ := false

theorem secrets_reported_once_anthropic : ∃ reported : List Candidate,
    scanLine overlappingRules ⟨".".toList, "a.py".toList⟩ 1 "sk-ant-b9d1".toList =
        some (reported.map (Candidate.finding ⟨".".toList, "a.py".toList⟩ 1)) ∧
      reported.Pairwise (fun c d => ¬ c.Overlaps d) ∧
      reported.map (fun c => c.rule.id) = ["anthropic-key".toList] := by
  obtain ⟨reported, hline, _, hdisjoint, _⟩ :=
    (secrets_reported_once overlappingRules ⟨".".toList, "a.py".toList⟩ 1 "sk-ant-b9d1".toList
      (by decide)).2
  refine ⟨reported, hline, hdisjoint, ?_⟩
  have hids : (scanLine overlappingRules ⟨".".toList, "a.py".toList⟩ 1 "sk-ant-b9d1".toList).map
      (List.map ScanFinding.ruleId) = some ["anthropic-key".toList] := by
    decide
  rw [hline, Option.map_some, List.map_map, Option.some.injEq] at hids
  exact hids

end HearthVault
