/-
HearthVault.Redact.Redactor — the streaming output redactor of
`exec --redact` (`redact.rs`).

`Redactor.new` turns the injected secrets into patterns and replacement
texts; `RedactStream.process` feeds one chunk of child output through a
carry buffer. The matcher is the `aho_corasick` crate and enters as a
`Searcher`: an iterator over the leftmost-longest matches of the buffer it
is given.

Byte slicing is partial here, as it is in the source: `slice` and the
lookup of a replacement answer `none` where the code would panic.
-/
import HearthVault.Lib.LeftmostLongest
import HearthVault.Lib.Text

namespace HearthVault.Redact

open HearthVault.LeftmostLongest

/-! ## Patterns and replacements -/

/-- `MIN_REDACTABLE_LEN`: shorter secret values are not redacted. -/
def minRedactableLen : Nat := 8

/-- `HEX_UPPER`. -/
def hexUpper : List UInt8 := Str.utf8 "0123456789ABCDEF".toList

/-- `u8::is_ascii_alphanumeric`. -/
def isAsciiAlphanumeric (b : UInt8) : Bool :=
  (48 ≤ b && b ≤ 57) || (65 ≤ b && b ≤ 90) || (97 ≤ b && b ≤ 122)

/-- The RFC 3986 unreserved bytes: alphanumerics and `-`, `_`, `.`, `~`. -/
def isUnreserved (b : UInt8) : Bool :=
  isAsciiAlphanumeric b || b == 45 || b == 95 || b == 46 || b == 126

/-- `percent_encode`: unreserved bytes pass, every other byte becomes `%XX`. -/
def percentEncode (bytes : List UInt8) : List UInt8 :=
  bytes.flatMap fun b =>
    if isUnreserved b then [b]
    else [37, hexUpper.getD (b >>> 4).toNat 0, hexUpper.getD (b &&& 0x0f).toNat 0]

/-- One injected secret: the environment variable's name and the value's bytes. -/
structure Secret where
  name : Str
  value : List UInt8
  deriving DecidableEq, Repr

/-- The replacement text `<vault:ENV_VAR_NAME>`. -/
def placeholder (name : Str) : List UInt8 :=
  Str.utf8 ("<vault:".toList ++ name ++ ">".toList)

/-- What one secret adds to the pattern and replacement vectors: nothing
when it is too short, the value, and its percent-encoded form when that
differs. -/
def Secret.entries (s : Secret) : List (List UInt8 × List UInt8) :=
  if s.value.length < minRedactableLen then []
  else
    (s.value, placeholder s.name) ::
      if percentEncode s.value = s.value then []
      else [(percentEncode s.value, placeholder s.name)]

/-- The `patterns` vector of `Redactor::new`. -/
def patterns (secrets : List Secret) : List (List UInt8) :=
  (secrets.flatMap Secret.entries).map Prod.fst

/-- The `replacements` vector of `Redactor::new`. -/
def replacements (secrets : List Secret) : List (List UInt8) :=
  (secrets.flatMap Secret.entries).map Prod.snd

/-! ## The redactor and its streams -/

/-- `hold_back`: the longest pattern's length minus one. -/
def holdBackOf (pats : List (List UInt8)) : Nat :=
  (pats.map List.length).max?.getD 0 - 1

/-- `line_safe`: no pattern contains a newline. -/
def lineSafeOf (pats : List (List UInt8)) : Bool :=
  pats.all fun p => !p.contains 10

/-- `Redactor`: the compiled matcher and what a stream needs beside it. No
pattern is empty, and each has its replacement text. -/
structure Redactor where
  pats : List (List UInt8)
  ac : Searcher pats
  replacements : List (List UInt8)
  holdBack : Nat
  lineSafe : Bool
  nonempty : ∀ p ∈ pats, p ≠ []
  aligned : replacements.length = pats.length
  holdBack_eq : holdBack = holdBackOf pats
  lineSafe_eq : lineSafe = lineSafeOf pats

theorem Secret.mem_entries {s : Secret} {e : List UInt8 × List UInt8} (h : e ∈ s.entries) :
    minRedactableLen ≤ s.value.length ∧ e.2 = placeholder s.name ∧
      (e.1 = s.value ∨ e.1 = percentEncode s.value) := by
  unfold Secret.entries at h
  split at h
  · simp at h
  · rename_i hlen
    refine ⟨by omega, ?_⟩
    rcases List.mem_cons.mp h with rfl | h
    · exact ⟨rfl, .inl rfl⟩
    · split at h
      · simp at h
      · obtain rfl := List.mem_singleton.mp h
        exact ⟨rfl, .inr rfl⟩

theorem length_le_percentEncode (bytes : List UInt8) :
    bytes.length ≤ (percentEncode bytes).length := by
  induction bytes with
  | nil => simp
  | cons b bytes ih =>
    simp only [percentEncode, List.flatMap_cons, List.length_append, List.length_cons] at ih ⊢
    split <;> simp only [List.length_cons, List.length_nil] <;> omega

theorem patterns_nonempty (secrets : List Secret) : ∀ p ∈ patterns secrets, p ≠ [] := by
  rintro p hp rfl
  obtain ⟨e, he, hnil⟩ := List.mem_map.mp hp
  obtain ⟨s, _, he⟩ := List.mem_flatMap.mp he
  obtain ⟨hlen, _, htext⟩ := Secret.mem_entries he
  have henc := length_le_percentEncode s.value
  rw [minRedactableLen] at hlen
  rcases htext with h | h
  · rw [← h, hnil, List.length_nil] at hlen
    omega
  · rw [← h, hnil, List.length_nil] at henc
    omega

/-- `Redactor::new`. The matcher built for the pattern list is a parameter. -/
def Redactor.new (secrets : List Secret) (ac : Searcher (patterns secrets)) : Redactor where
  pats := patterns secrets
  ac := ac
  replacements := Redact.replacements secrets
  holdBack := holdBackOf (patterns secrets)
  lineSafe := lineSafeOf (patterns secrets)
  nonempty := patterns_nonempty secrets
  aligned := by simp [Redact.replacements, patterns]
  holdBack_eq := rfl
  lineSafe_eq := rfl

/-- `&b[i..j]`, `none` where the range is not one of `b`. -/
def slice {α : Type} (b : List α) (i j : Nat) : Option (List α) :=
  if i ≤ j ∧ j ≤ b.length then some ((b.drop i).take (j - i)) else none

/-- The index of the last newline (`rposition`). -/
def lastNewline (b : List UInt8) : Option Nat :=
  (b.reverse.findIdx? (· == 10)).map (b.length - 1 - ·)

/-- The bytes of the buffer that no unfinished match can reach. -/
def safeLen (r : Redactor) (buf : List UInt8) (eof : Bool) : Nat :=
  let plain := buf.length - (if eof then 0 else r.holdBack)
  if r.lineSafe then
    match lastNewline buf with
    | some nl => max plain (nl + 1)
    | none => plain
  else plain

/-- The loop of `process` over the matches: the forwarded bytes and the new
carry. The first match past `safe` ends it. -/
def Redactor.emit (r : Redactor) (buf : List UInt8) (safe : Nat) :
    List Match → Nat → List UInt8 → Option (List UInt8 × List UInt8)
  | [], cursor, out => do
    let tail ← slice buf cursor safe
    let carry ← slice buf safe buf.length
    pure (out ++ tail, carry)
  | m :: ms, cursor, out =>
    if m.stop > safe then do
      let carryFrom := min (max cursor m.start) safe
      let gap ← slice buf cursor carryFrom
      let carry ← slice buf carryFrom buf.length
      pure (out ++ gap, carry)
    else do
      let gap ← slice buf cursor m.start
      let text ← r.replacements[m.pattern]?
      r.emit buf safe ms m.stop (out ++ gap ++ text)

/-- `RedactStream::process`: the carry before and the chunk give the
forwarded bytes and the carry after. -/
def Redactor.process (r : Redactor) (carry chunk : List UInt8) (eof : Bool) :
    Option (List UInt8 × List UInt8) :=
  let buf := carry ++ chunk
  r.emit buf (safeLen r buf eof) (r.ac.findIter buf) 0 []

/-- Feed `chunks` with `eof = false` and then `last` with `eof = true`, and
concatenate what comes out (`pump_redacted`, where `last` is empty). -/
def Redactor.pump (r : Redactor) :
    List UInt8 → List (List UInt8) → List UInt8 → Option (List UInt8)
  | carry, [], last => do
    let (out, _) ← r.process carry last true
    pure out
  | carry, chunk :: chunks, last => do
    let (out, carry) ← r.process carry chunk false
    let rest ← r.pump carry chunks last
    pure (out ++ rest)

end HearthVault.Redact
