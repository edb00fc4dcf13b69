/-
HearthVault.Lib.Text — Rust's `String` and `str` operations over lists of
characters.

A `Str` is the sequence of Unicode scalar values of a Rust string; `utf8`
is the byte string it is stored as. Every operation carries the name of
the `str` method it stands for and follows that method's documentation:
`lines` splits after `\n` and drops one `\r` before it, `trim` removes the
Unicode `White_Space` characters, `replace` rewrites the non-overlapping
matches from the left.
-/
import Mathlib.Algebra.Ring.Nat
import Mathlib.Data.List.Infix

namespace HearthVault

/-- A Rust `String`: its Unicode scalar values, in order. -/
abbrev Str := List Char

namespace Str

/-- `str::as_bytes`. -/
def utf8 (s : Str) : List UInt8 :=
  s.flatMap String.utf8EncodeChar

/-- `String::from_utf8`. -/
def fromUtf8 (bytes : List UInt8) : Option Str :=
  bytes.toByteArray.utf8Decode?.map Array.toList

/-- `str::split_at` on a byte offset; there is none within a character. -/
def splitAtByte : Nat → Str → Option (Str × Str)
  | 0, s => some ([], s)
  | _ + 1, [] => none
  | n + 1, c :: s =>
    if c.utf8Size ≤ n + 1 then (splitAtByte (n + 1 - c.utf8Size) s).map fun (a, b) => (c :: a, b)
    else none

/-- `char::is_whitespace`: the Unicode `White_Space` property. -/
def isWhitespace (c : Char) : Bool :=
  (9 ≤ c.toNat && c.toNat ≤ 13) || c.toNat == 0x20 || c.toNat == 0x85 || c.toNat == 0xA0 ||
    c.toNat == 0x1680 || (0x2000 ≤ c.toNat && c.toNat ≤ 0x200A) || c.toNat == 0x2028 ||
    c.toNat == 0x2029 || c.toNat == 0x202F || c.toNat == 0x205F || c.toNat == 0x3000

/-- `str::trim_start`. -/
def trimStart (s : Str) : Str :=
  s.dropWhile isWhitespace

/-- `str::trim_end`. -/
def trimEnd (s : Str) : Str :=
  (s.reverse.dropWhile isWhitespace).reverse

/-- `str::trim`. -/
def trim (s : Str) : Str :=
  trimEnd (trimStart s)

/-- `str::strip_prefix`. -/
def stripPrefix (p s : Str) : Option Str :=
  if p.isPrefixOf s then some (s.drop p.length) else none

/-- `str::split_once` on one character. -/
def splitOnce (c : Char) : Str → Option (Str × Str)
  | [] => none
  | x :: s => if x = c then some ([], s) else (splitOnce c s).map fun (a, b) => (x :: a, b)

/-- `str::split` on one character. -/
def split (c : Char) : Str → List Str
  | [] => [[]]
  | x :: s =>
    if x = c then [] :: split c s
    else match split c s with
      | [] => [[x]]
      | l :: ls => (x :: l) :: ls

/-- `str::splitn` on one character: the last part is what is left. -/
def splitN : Nat → Char → Str → List Str
  | 0, _, _ => []
  | 1, _, s => [s]
  | n + 2, c, s =>
    match splitOnce c s with
    | none => [s]
    | some (a, b) => a :: splitN (n + 1) c b

/-- `s.rsplit(c).next().unwrap_or(s)`: the part after the last `c`. -/
def afterLast (c : Char) (s : Str) : Str :=
  (split c s).getLastD s

/-- `str::rfind` of one character, in characters. -/
def rfind (c : Char) : Str → Option Nat
  | [] => none
  | x :: s =>
    match rfind c s with
    | some i => some (i + 1)
    | none => if x = c then some 0 else none

/-- Drop one trailing carriage return. -/
def stripCr (s : Str) : Str :=
  if s.getLast? = some '\r' then s.dropLast else s

/-- `str::lines`: every line but the last one is ended by `\n`, and only an
ended line loses its `\r`; an empty last line is no line. -/
def lines (s : Str) : List Str :=
  let parts := split '\n' s
  let last := parts.getLastD []
  parts.dropLast.map stripCr ++ if last = [] then [] else [last]

/-- `str::replace`: `skip` characters still belong to the match just replaced. -/
def replaceFrom (pat new : Str) : Nat → Str → Str
  | _, [] => []
  | skip + 1, _ :: s => replaceFrom pat new skip s
  | 0, c :: s =>
    if pat.isPrefixOf (c :: s) then new ++ replaceFrom pat new (pat.length - 1) s
    else c :: replaceFrom pat new 0 s

/-- `str::replace` for a non-empty pattern. -/
def replace (pat new s : Str) : Str :=
  replaceFrom pat new 0 s

/-- `[String]::join`. -/
def join (sep : Str) (parts : List Str) : Str :=
  (parts.intersperse sep).flatten

example : lines "a\r\nb\n\nc\r".toList = ["a".toList, "b".toList, [], "c\r".toList] := by decide

example : replace "\\n".toList "\n".toList "a\\nb\\\\n".toList = "a\nb\\\n".toList := by decide

/-! ## Trimming and splitting -/

theorem trimStart_eq_self {s : Str} (h : ∀ c, s.head? = some c → isWhitespace c = false) :
    trimStart s = s := by
  cases s with
  | nil => rfl
  | cons c s => simp [trimStart, h c rfl]

theorem trimEnd_eq_self {s : Str} (h : ∀ c, s.getLast? = some c → isWhitespace c = false) :
    trimEnd s = s := by
  have hrev : trimStart s.reverse = s.reverse := by
    refine trimStart_eq_self fun c hc => h c ?_
    rwa [List.head?_reverse] at hc
  rw [trimEnd, ← trimStart, hrev, List.reverse_reverse]

theorem trimEnd_concat {s : Str} {c : Char} (h : isWhitespace c = true) :
    trimEnd (s ++ [c]) = trimEnd s := by
  simp [trimEnd, h]

/-- A blank at the end is trimmed. -/
theorem trim_concat {s : Str} {c : Char} (h : isWhitespace c = true) :
    trim (s ++ [c]) = trim s := by
  unfold trim trimStart
  rw [List.dropWhile_append]
  split
  · rename_i hnil
    simp [h, List.isEmpty_iff.mp hnil]
  · exact trimEnd_concat h

/-- What follows a character that is no blank is trimmed by itself. -/
theorem trimEnd_cons {s : Str} {c : Char} (h : isWhitespace c = false) :
    trimEnd (c :: s) = c :: trimEnd s := by
  unfold trimEnd
  rw [List.reverse_cons, List.dropWhile_append]
  split
  · rename_i hnil
    simp [h, List.isEmpty_iff.mp hnil]
  · simp

/-- A line without blanks at its ends, read with its line break. -/
theorem trim_line {s : Str} (hne : s ≠ []) (hhead : ∀ c, s.head? = some c → isWhitespace c = false)
    (hlast : ∀ c, s.getLast? = some c → isWhitespace c = false) : trim (s ++ ['\n']) = s := by
  have hstart : trimStart (s ++ ['\n']) = s ++ ['\n'] := by
    refine trimStart_eq_self fun c hc => hhead c ?_
    cases s with
    | nil => exact absurd rfl hne
    | cons x s => exact hc
  rw [trim, hstart, trimEnd_concat (by decide), trimEnd_eq_self hlast]

theorem split_ne_nil (c : Char) (s : Str) : split c s ≠ [] := by
  cases s with
  | nil => simp [split]
  | cons x s =>
    unfold split
    split
    · simp
    · split <;> simp

/-- The parts of a text, joined again, are the text. -/
theorem intercalate_split (c : Char) (s : Str) : List.intercalate [c] (split c s) = s := by
  induction s with
  | nil => rfl
  | cons x s ih =>
    obtain ⟨l, ls, hs⟩ := List.exists_cons_of_ne_nil (split_ne_nil c s)
    rw [hs] at ih
    unfold split
    by_cases h : x = c
    · rw [if_pos h, hs, List.intercalate_cons_cons, ih, h]
      rfl
    · rw [if_neg h, hs]
      dsimp only
      rw [← ih]
      cases ls <;> simp [List.intercalate]

theorem splitOnce_append {c : Char} {a b : Str} (h : c ∉ a) :
    splitOnce c (a ++ c :: b) = some (a, b) := by
  induction a with
  | nil => simp [splitOnce]
  | cons x a ih =>
    obtain ⟨hx, ha⟩ := not_or.mp (List.mem_cons.not.mp h)
    simp [splitOnce, Ne.symm hx, ih ha]

theorem splitOnce_eq_none {c : Char} {s : Str} (h : c ∉ s) : splitOnce c s = none := by
  induction s with
  | nil => rfl
  | cons x s ih =>
    obtain ⟨hx, hs⟩ := not_or.mp (List.mem_cons.not.mp h)
    simp [splitOnce, Ne.symm hx, ih hs]

theorem splitN_append {n : Nat} {c : Char} {a b : Str} (h : c ∉ a) :
    splitN (n + 2) c (a ++ c :: b) = a :: splitN (n + 1) c b := by
  simp [splitN, splitOnce_append h]

theorem splitN_of_notMem {n : Nat} {c : Char} {s : Str} (h : c ∉ s) :
    splitN (n + 1) c s = [s] := by
  cases n with
  | zero => rfl
  | succ n => simp [splitN, splitOnce_eq_none h]

theorem rfind_eq_none {c : Char} {s : Str} (h : c ∉ s) : rfind c s = none := by
  induction s with
  | nil => rfl
  | cons x s ih =>
    obtain ⟨hx, hs⟩ := not_or.mp (List.mem_cons.not.mp h)
    simp [rfind, Ne.symm hx, ih hs]

/-- The last of a character is where it does not come again. -/
theorem rfind_append {c : Char} {a b : Str} (h : c ∉ b) :
    rfind c (a ++ c :: b) = some a.length := by
  induction a with
  | nil => simp [rfind, rfind_eq_none h]
  | cons x a ih => simp [rfind, ih]

/-- A text that has a character is cut at its last one. -/
theorem exists_last {c : Char} {s : Str} (h : c ∈ s) : ∃ a b, s = a ++ c :: b ∧ c ∉ b := by
  induction s with
  | nil => cases h
  | cons x s ih =>
    by_cases hs : c ∈ s
    · obtain ⟨a, b, rfl, hb⟩ := ih hs
      exact ⟨x :: a, b, rfl, hb⟩
    · obtain rfl | hmem := List.mem_cons.mp h
      · exact ⟨[], s, rfl, hs⟩
      · exact absurd hmem hs

/-- What `splitOnce` finds is the first of the character. -/
theorem splitOnce_eq_some {c : Char} {s a b : Str} (h : splitOnce c s = some (a, b)) :
    s = a ++ c :: b ∧ c ∉ a := by
  induction s generalizing a with
  | nil => cases h
  | cons x s ih =>
    unfold splitOnce at h
    split at h
    · rename_i hx
      cases h
      simp [hx]
    · rename_i hx
      obtain ⟨⟨a', b'⟩, hsplit, heq⟩ := Option.map_eq_some_iff.mp h
      cases heq
      obtain ⟨rfl, hnot⟩ := ih hsplit
      exact ⟨rfl, by simp [Ne.symm hx, hnot]⟩

/-! ## Bytes -/

/-- The bytes of a character: its number, or bytes that are no ASCII. -/
theorem utf8EncodeChar_cases (c : Char) :
    (c.toNat < 128 ∧ String.utf8EncodeChar c = [UInt8.ofNat c.toNat]) ∨
      (128 ≤ c.toNat ∧ String.utf8EncodeChar c ≠ [] ∧
        ∀ b ∈ String.utf8EncodeChar c, 128 ≤ b.toNat) := by
  have hnat : c.val.toNat = c.toNat := rfl
  unfold String.utf8EncodeChar
  dsimp only
  split
  · left
    simp
    omega
  right
  split
  · simp
    omega
  split
  · simp
    omega
  · simp
    omega

theorem fromUtf8_utf8 (s : Str) : fromUtf8 (utf8 s) = some s := by
  have h : (utf8 s).toByteArray = s.utf8Encode := rfl
  rw [fromUtf8, h, List.utf8Decode?_utf8Encode]
  rfl

/-! ## Lengths -/

theorem trimStart_sublist (s : Str) : (trimStart s).Sublist s :=
  (List.dropWhile_suffix isWhitespace).sublist

theorem trimEnd_sublist (s : Str) : (trimEnd s).Sublist s := by
  have h := (trimStart_sublist s.reverse).reverse
  rwa [List.reverse_reverse] at h

theorem trim_sublist (s : Str) : (trim s).Sublist s :=
  (trimEnd_sublist _).trans (trimStart_sublist s)

/-- A text that is trimmed has no blanks at its ends. -/
theorem head_of_trimStart {s : Str} (h : trimStart s = s) :
    ∀ c, s.head? = some c → isWhitespace c = false := by
  intro c hc
  cases s with
  | nil => cases hc
  | cons x s =>
    cases hc
    by_contra hblank
    have hlen := (trimStart_sublist s).length_le
    have hdrop : trimStart (c :: s) = trimStart s := by
      rw [trimStart, List.dropWhile_cons_of_pos (by simpa using hblank), ← trimStart]
    rw [← hdrop, h, List.length_cons] at hlen
    omega

theorem ends_of_trim {s : Str} (h : trim s = s) :
    (∀ c, s.head? = some c → isWhitespace c = false) ∧
      ∀ c, s.getLast? = some c → isWhitespace c = false := by
  have hstart : trimStart s = s := by
    refine (trimStart_sublist s).eq_of_length_le ?_
    have hlen := (trimEnd_sublist (trimStart s)).length_le
    rwa [← trim, h] at hlen
  have hend : trimStart s.reverse = s.reverse := by
    rw [trim, hstart, trimEnd, ← trimStart] at h
    rw [← List.reverse_reverse (trimStart s.reverse), h]
  refine ⟨head_of_trimStart hstart, fun c hc => head_of_trimStart hend c ?_⟩
  rwa [List.head?_reverse]

theorem stripCr_eq_self {s : Str} (h : s.getLast? ≠ some '\r') : stripCr s = s :=
  if_neg h

theorem stripCr_sublist (s : Str) : (stripCr s).Sublist s := by
  unfold stripCr
  split
  · exact List.dropLast_sublist s
  · exact List.Sublist.refl s

theorem stripPrefix_sublist (p s : Str) : ((stripPrefix p s).getD s).Sublist s := by
  unfold stripPrefix
  split
  · exact List.drop_sublist _ s
  · exact List.Sublist.refl s

/-- What is rewritten to something shorter gets no longer. -/
theorem replaceFrom_length_le {pat new : Str} (h : new.length ≤ pat.length) (skip : Nat) (s : Str) :
    (replaceFrom pat new skip s).length + min skip s.length ≤ s.length := by
  induction s generalizing skip with
  | nil => simp [replaceFrom]
  | cons c s ih =>
    cases skip with
    | succ skip =>
      have := ih skip
      simp only [replaceFrom, List.length_cons]
      omega
    | zero =>
      unfold replaceFrom
      split
      · rename_i hpre
        have hlen := (List.isPrefixOf_iff_prefix.mp hpre).length_le
        have := ih (pat.length - 1)
        simp only [List.length_append, List.length_cons] at hlen ⊢
        omega
      · have := ih 0
        simp only [List.length_cons]
        omega

theorem replace_length_le {pat new : Str} (h : new.length ≤ pat.length) (s : Str) :
    (replace pat new s).length ≤ s.length := by
  have := replaceFrom_length_le h 0 s
  rw [replace]
  omega

/-! ## Replacing -/

/-- Where the pattern does not begin, a character is copied. -/
theorem replaceFrom_miss {pat new s : Str} {c : Char} (h : ¬ pat <+: c :: s) :
    replaceFrom pat new 0 (c :: s) = c :: replaceFrom pat new 0 s := by
  rw [replaceFrom, if_neg (by rwa [List.isPrefixOf_iff_prefix])]

/-- The rest of a match is passed over. -/
theorem replaceFrom_skip (pat new rest s : Str) :
    replaceFrom pat new rest.length (rest ++ s) = replaceFrom pat new 0 s := by
  induction rest with
  | nil => rfl
  | cons c rest ih => exact ih

/-- Where the pattern begins, it is rewritten. -/
theorem replaceFrom_hit {pat new s : Str} (h : pat ≠ []) :
    replaceFrom pat new 0 (pat ++ s) = new ++ replaceFrom pat new 0 s := by
  obtain ⟨c, rest, rfl⟩ := List.exists_cons_of_ne_nil h
  rw [List.cons_append, replaceFrom, if_pos, List.length_cons, Nat.add_sub_cancel, replaceFrom_skip]
  rw [List.isPrefixOf_iff_prefix]
  exact List.prefix_append (c :: rest) s

/-! ## Lines -/

theorem split_append {c : Char} {a b : Str} (h : c ∉ a) :
    split c (a ++ c :: b) = a :: split c b := by
  induction a with
  | nil => simp [split]
  | cons x a ih =>
    obtain ⟨hx, ha⟩ := not_or.mp (List.mem_cons.not.mp h)
    simp [split, Ne.symm hx, ih ha]

/-- The first line. -/
theorem lines_append {a b : Str} (h : '\n' ∉ a) :
    lines (a ++ '\n' :: b) = stripCr a :: lines b := by
  obtain ⟨l, ls, hb⟩ := List.exists_cons_of_ne_nil (split_ne_nil '\n' b)
  simp [lines, split_append h, hb]

theorem lines_of_notMem {a : Str} (h : '\n' ∉ a) : lines a = if a = [] then [] else [a] := by
  have hsplit : split '\n' a = [a] := by
    induction a with
    | nil => rfl
    | cons x a ih =>
      obtain ⟨hx, ha⟩ := not_or.mp (List.mem_cons.not.mp h)
      simp [split, Ne.symm hx, ih ha]
  simp [lines, hsplit]

/-- Lines that are ended one by one, and what follows them. -/
theorem lines_flatMap_append {ls : List Str} (h : ∀ l ∈ ls, '\n' ∉ l) (b : Str) :
    lines (ls.flatMap (· ++ ['\n']) ++ b) = ls.map stripCr ++ lines b := by
  induction ls with
  | nil => rfl
  | cons l ls ih =>
    rw [List.flatMap_cons, List.append_assoc, List.append_assoc, List.singleton_append,
      lines_append (h l List.mem_cons_self), ih fun l' hl' => h l' (.tail _ hl'), List.map_cons,
      List.cons_append]

/-- Lines that are ended one by one. -/
theorem lines_flatMap {ls : List Str} (h : ∀ l ∈ ls, '\n' ∉ l) :
    lines (ls.flatMap (· ++ ['\n'])) = ls.map stripCr := by
  have hend := lines_flatMap_append h []
  rw [List.append_nil] at hend
  rw [hend]
  exact List.append_nil _

theorem join_append_sep (sep : Str) {ls : List Str} (h : ls ≠ []) :
    join sep ls ++ sep = ls.flatMap (· ++ sep) := by
  induction ls with
  | nil => exact absurd rfl h
  | cons l ls ih =>
    cases ls with
    | nil => simp [join]
    | cons l' ls =>
      have := ih (by simp)
      simp only [join, List.intersperse, List.flatten_cons, List.append_assoc] at this ⊢
      rw [this]
      simp

theorem sum_length_split (c : Char) (s : Str) :
    ((split c s).map List.length).sum = (s.filter (· ≠ c)).length := by
  induction s with
  | nil => rfl
  | cons x s ih =>
    obtain ⟨l, ls, hs⟩ := List.exists_cons_of_ne_nil (split_ne_nil c s)
    unfold split
    by_cases h : x = c
    · rw [if_pos h, List.filter_cons_of_neg (by simp [h]), ← ih]
      simp
    · rw [if_neg h, hs, List.filter_cons_of_pos (by simp [h]), List.length_cons, ← ih, hs]
      simp
      omega

theorem sum_length_parts (parts : List Str) :
    ((parts.dropLast.map stripCr ++ if parts.getLastD [] = [] then [] else [parts.getLastD []]).map
      List.length).sum ≤ (parts.map List.length).sum := by
  induction parts with
  | nil => rfl
  | cons l ls ih =>
    cases ls with
    | nil => by_cases h : l = [] <;> simp [h]
    | cons l' ls =>
      have hstrip := (stripCr_sublist l).length_le
      simp only [List.dropLast_cons_cons, List.map_cons, List.cons_append, List.sum_cons,
        List.getLastD_cons] at ih ⊢
      omega

/-- The lines of a text are no longer than the text without its line breaks. -/
theorem sum_length_lines (s : Str) :
    ((lines s).map List.length).sum ≤ (s.filter (· ≠ '\n')).length := by
  rw [← sum_length_split]
  exact sum_length_parts (split '\n' s)

/-! ## Counting lines -/

theorem length_split (c : Char) (s : Str) : (split c s).length = s.count c + 1 := by
  induction s with
  | nil => rfl
  | cons x s ih =>
    obtain ⟨l, ls, hs⟩ := List.exists_cons_of_ne_nil (split_ne_nil c s)
    unfold split
    by_cases h : x = c
    · simp [h, ih]
    · rw [if_neg h, hs, List.count_cons_of_ne h, ← ih, hs]
      rfl

theorem split_concat (c : Char) (s : Str) : split c (s ++ [c]) = split c s ++ [[]] := by
  induction s with
  | nil => simp [split]
  | cons x s ih =>
    obtain ⟨l, ls, hs⟩ := List.exists_cons_of_ne_nil (split_ne_nil c s)
    rw [List.cons_append, split, split, ih, hs]
    by_cases h : x = c <;> simp [h]

/-- A text that ends with a line break has a line for each of them. -/
theorem length_lines_concat (s : Str) : (lines (s ++ ['\n'])).length = s.count '\n' + 1 := by
  rw [lines, split_concat]
  simp [length_split]

theorem count_flatMap (ls : List Str) : (ls.flatMap (· ++ ['\n'])).count '\n' =
    ls.length + (ls.map (List.count '\n')).sum := by
  induction ls with
  | nil => rfl
  | cons l ls ih =>
    rw [List.flatMap_cons, List.count_append, ih]
    simp
    omega

/-- Parts that are ended one by one are as many lines, and one more for each
line break in them. -/
theorem length_lines_flatMap {ls : List Str} (h : ls ≠ []) :
    (lines (ls.flatMap (· ++ ['\n']))).length = ls.length + (ls.map (List.count '\n')).sum := by
  have hcount := count_flatMap ls
  rw [← join_append_sep ['\n'] h] at hcount ⊢
  rw [length_lines_concat]
  simpa using hcount

theorem notMem_of_length_lines {ls : List Str} (h : ls ≠ [])
    (hlength : (lines (ls.flatMap (· ++ ['\n']))).length = ls.length) : ∀ l ∈ ls, '\n' ∉ l := by
  intro l hl hmem
  rw [length_lines_flatMap h] at hlength
  have hzero : (ls.map (List.count '\n')).sum = 0 := by omega
  have hcount := List.sum_eq_zero_iff_forall_eq_nat.mp hzero _ (List.mem_map_of_mem hl)
  exact List.count_eq_zero.mp hcount hmem

theorem notMem_of_mem_split {c : Char} {s l : Str} (h : l ∈ split c s) : c ∉ l := by
  induction s generalizing l with
  | nil =>
    rw [split, List.mem_singleton] at h
    simp [h]
  | cons x s ih =>
    obtain ⟨l', ls, hs⟩ := List.exists_cons_of_ne_nil (split_ne_nil c s)
    unfold split at h
    rw [hs] at h ih
    by_cases hx : x = c
    · rw [if_pos hx] at h
      obtain rfl | h := List.mem_cons.mp h
      · simp
      · exact ih h
    · rw [if_neg hx] at h
      obtain rfl | h := List.mem_cons.mp h
      · simp [Ne.symm hx, ih List.mem_cons_self]
      · exact ih (.tail _ h)

theorem notMem_of_mem_lines {s l : Str} (h : l ∈ lines s) : '\n' ∉ l := by
  have hlast : (split '\n' s).getLastD [] ∈ split '\n' s := by
    rw [List.getLastD_eq_getLast?, List.getLast?_eq_getLast_of_ne_nil (split_ne_nil _ _)]
    exact List.getLast_mem _
  obtain h | h := List.mem_append.mp h
  · obtain ⟨part, hpart, rfl⟩ := List.mem_map.mp h
    intro hmem
    exact notMem_of_mem_split (List.dropLast_subset _ hpart) ((stripCr_sublist part).subset hmem)
  · split at h
    · cases h
    · rw [List.mem_singleton.mp h]
      exact notMem_of_mem_split hlast

end Str

end HearthVault
