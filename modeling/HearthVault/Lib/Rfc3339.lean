/-
HearthVault.Lib.Rfc3339 — reading the instants that `toRfc3339` prints.

`dayOf` is the day number of a date, and undoes `civil` (`dayOf_civil`). A
text is read at fixed places, which are those of a year of four digits, and
what is found counts only if it prints as that text. So an instant in the
years from 0 to 9999 reads back as it is, and an instant outside of them, which
prints with a sign, does not read (`readRfc3339_toRfc3339`).
-/
import HearthVault.Lib.Calendar

namespace HearthVault.Calendar

/-- The day number of a date. -/
def dayOf (y : Int) (month day : Nat) : Int :=
  let y := if month ≤ 2 then y - 1 else y
  let yoe := (y % 400).toNat
  let mp := if month ≤ 2 then month + 9 else month - 3
  let doy := (153 * mp + 2) / 5 + (day - 1)
  y / 400 * 146097 + (365 * yoe + yoe / 4 - yoe / 100 + doy : Nat) - 719468

def yearOf (t : DateTime) : Int :=
  (civil (timestamp t / 86400)).1

/-- Instants whose year has four digits. -/
def InYears (t : DateTime) : Prop :=
  0 ≤ yearOf t ∧ yearOf t ≤ 9999

instance (t : DateTime) : Decidable (InYears t) :=
  inferInstanceAs (Decidable (_ ∧ _))

/-! ## Dates -/

/-- The year of an era that a day is in, and what is left of it. -/
def yearOfEra (doe : Nat) : Nat :=
  (doe - doe / 1460 + doe / 36524 - doe / 146096) / 365

/-- The days of the years before a year of an era. -/
def daysBefore (yoe : Nat) : Nat :=
  365 * yoe + yoe / 4 - yoe / 100

/-- The last day of an era is the leap day of its last year. -/
theorem yearOfEra_last : yearOfEra 146096 = 399 ∧ daysBefore 399 = 145731 := by decide

/-- A day of an era is one of the 366 that its year may have. -/
theorem yearOfEra_spec {doe : Nat} (h : doe < 146097) :
    yearOfEra doe ≤ 399 ∧ daysBefore (yearOfEra doe) ≤ doe ∧
      doe ≤ daysBefore (yearOfEra doe) + 365 := by
  by_cases hlast : doe = 146096
  · subst hlast
    rw [yearOfEra_last.1, yearOfEra_last.2]
    omega
  obtain ⟨b, x, hb, hx, rfl⟩ : ∃ b x, b ≤ 3 ∧ x < 36524 ∧ doe = 36524 * b + x :=
    ⟨doe / 36524, doe % 36524, by omega, by omega, by omega⟩
  -- the leap days of the century `b` before this one, to one too many
  generalize hleaps : (24 * b + x) / 1460 = leaps
  have hle : leaps ≤ x := by omega
  have hyear : yearOfEra (36524 * b + x) = 100 * b + (x - leaps) / 365 := by
    have hall : (36524 * b + x) / 1460 = 25 * b + leaps := by omega
    have hcenturies : (36524 * b + x) / 36524 = b := by omega
    have hera : (36524 * b + x) / 146096 = 0 := by omega
    have hdays : 36524 * b + x - (25 * b + leaps) + b - 0 = 365 * (100 * b) + (x - leaps) := by
      omega
    rw [yearOfEra, hall, hcenturies, hera, hdays, Nat.mul_add_div (by decide)]
  obtain ⟨v, k, hk, hvk⟩ : ∃ v k, k ≤ 3 ∧ (x - leaps) / 365 = 4 * v + k :=
    ⟨(x - leaps) / 365 / 4, (x - leaps) / 365 % 4, by omega, by omega⟩
  have hlow : v ≤ leaps := by omega
  have hcentury : leaps ≤ 25 := by omega
  have hhigh : leaps ≤ v + 1 := by omega
  have hv : 4 * v + k ≤ 99 := by omega
  have hfours : (100 * b + (4 * v + k)) / 4 = 25 * b + v := by omega
  have hhundreds : (100 * b + (4 * v + k)) / 100 = b := by omega
  rw [hyear, hvk, daysBefore, hfours, hhundreds]
  omega

/-- A day as an era, a year in it, a day of that year and a month in it. -/
theorem civil_spec (day : Int) : ∃ (era : Int) (yoe doy mp : Nat),
    day + 719468 = era * 146097 + (daysBefore yoe + doy : Nat) ∧ yoe ≤ 399 ∧ doy ≤ 365 ∧
      mp = (5 * doy + 2) / 153 ∧
      civil day = (yoe + era * 400 + (if mp < 10 then 0 else 1),
        if mp < 10 then mp + 3 else mp - 9, doy - (153 * mp + 2) / 5 + 1) := by
  obtain ⟨doe, hdoe⟩ : ∃ doe, doe = ((day + 719468) % 146097).toNat := ⟨_, rfl⟩
  obtain ⟨hyoe, hlow, hhigh⟩ := @yearOfEra_spec doe (by omega)
  obtain ⟨doy, hdoy⟩ : ∃ doy, doy = doe - daysBefore (yearOfEra doe) := ⟨_, rfl⟩
  refine ⟨(day + 719468) / 146097, yearOfEra doe, doy, _, by omega, hyoe, by omega, rfl, ?_⟩
  have hciv : civil day = (yearOfEra doe + (day + 719468) / 146097 * 400 +
      (if (if (5 * doy + 2) / 153 < 10 then (5 * doy + 2) / 153 + 3
        else (5 * doy + 2) / 153 - 9) ≤ 2 then 1 else 0),
      if (5 * doy + 2) / 153 < 10 then (5 * doy + 2) / 153 + 3 else (5 * doy + 2) / 153 - 9,
      doy - (153 * ((5 * doy + 2) / 153) + 2) / 5 + 1) := by
    rw [hdoy, hdoe]
    rfl
  rw [hciv]
  by_cases hmonth : (5 * doy + 2) / 153 < 10
  · rw [if_pos hmonth, if_neg (by omega), if_pos hmonth]
  · rw [if_neg hmonth, if_pos (by omega), if_neg hmonth]

theorem dayOf_civil (day : Int) :
    dayOf (civil day).1 (civil day).2.1 (civil day).2.2 = day := by
  obtain ⟨era, yoe, doy, mp, hday, hyoe, hdoy, hmp, hcivil⟩ := civil_spec day
  rw [hcivil, dayOf]
  dsimp only
  have hera : (yoe + era * 400) / 400 = era := by omega
  have hrest : ((yoe + era * 400) % 400).toNat = yoe := by omega
  by_cases hmonth : mp < 10
  · have hlate : ¬mp + 3 ≤ 2 := by omega
    have hback : mp + 3 - 3 = mp := by omega
    have hall : (153 * mp + 2) / 5 + (doy - (153 * mp + 2) / 5 + 1 - 1) = doy := by omega
    simp only [if_pos hmonth, if_neg hlate, hback, hall]
    rw [daysBefore] at hday
    omega
  · have hearly : mp - 9 ≤ 2 := by omega
    have hback : mp - 9 + 9 = mp := by omega
    have hyear : (yoe : Int) + era * 400 + 1 - 1 = yoe + era * 400 := by omega
    have hall : (153 * mp + 2) / 5 + (doy - (153 * mp + 2) / 5 + 1 - 1) = doy := by omega
    simp only [if_neg hmonth, if_pos hearly, hyear, hera, hrest, hback, hall]
    rw [daysBefore] at hday
    omega

theorem civil_bounds (day : Int) : (civil day).2.1 ≤ 12 ∧ (civil day).2.2 ≤ 31 := by
  obtain ⟨era, yoe, doy, mp, -, -, hdoy, hmp, hcivil⟩ := civil_spec day
  rw [hcivil]
  dsimp only
  refine ⟨?_, by omega⟩
  split <;> omega

/-- An instant in the years of four digits is far from the ends of the calendar. -/
theorem InYears.range {t : DateTime} (h : InYears t) : minUtc ≤ t ∧ t ≤ maxUtc := by
  obtain ⟨era, yoe, doy, mp, hday, hyoe, hdoy, hmp, hcivil⟩ := civil_spec (timestamp t / 86400)
  obtain ⟨hlow, hhigh⟩ := h
  rw [yearOf, hcivil] at hlow hhigh
  dsimp only at hlow hhigh
  have hbefore : daysBefore yoe ≤ 145731 + yoe := by
    unfold daysBefore
    omega
  simp only [timestamp, nanosPerSecond] at hday
  have hone : (if mp < 10 then 0 else 1 : Int) ≤ 1 := by split <;> omega
  have hzero : 0 ≤ (if mp < 10 then 0 else 1 : Int) := by split <;> omega
  generalize (if mp < 10 then 0 else 1 : Int) = january at *
  have hera : -1 ≤ era ∧ era ≤ 24 := by omega
  constructor
  · show (-8334601228800000000000 : Int) ≤ t
    omega
  · refine Int.not_lt.mp fun hlt : (8210266876799999999999 : Int) < t => ?_
    omega

/-! ## Digits -/

/-- The number that decimal digits stand for. -/
def number (s : Str) : Nat :=
  Nat.ofDigitChars 10 s 0

theorem number_digits (width n : Nat) : number (digits width n) = n := by
  rw [number, digits, Nat.ofDigitChars_append, Nat.ofDigitChars_replicate_zero, Nat.mul_zero,
    Nat.ofDigitChars_ten_toDigits]

theorem length_digits {width n : Nat} (hwidth : 0 < width) (h : n < 10 ^ width) :
    (digits width n).length = width := by
  have hlen := (Nat.length_toDigits_le_iff (by decide) hwidth).mpr h
  rw [digits, List.length_append, List.length_replicate]
  omega

/-! ## Texts -/

/-- The number in `len` characters of a text. -/
def field (s : Str) (start len : Nat) : Nat :=
  number ((s.drop start).take len)

/-- The digits between the seconds and the offset. -/
def fractionOf (s : Str) : Str :=
  (s.drop 20).take (s.length - 26)

/-- The instant that the fields of a text make. -/
def instantOf (s : Str) : DateTime :=
  (dayOf (field s 0 4) (field s 5 2) (field s 8 2) * 86400 +
    (field s 11 2 * 3600 + field s 14 2 * 60 + field s 17 2 : Nat)) * nanosPerSecond +
    (number (fractionOf s) * 10 ^ (9 - (fractionOf s).length) : Nat)

/-- Read an instant that `toRfc3339` has printed. -/
def readRfc3339 (s : Str) : Option DateTime :=
  if InYears (instantOf s) ∧ toRfc3339 (instantOf s) = s then some (instantOf s) else none

/-- The parts of a printed instant. -/
def stamp (year month day hour minute second fraction : Str) : Str :=
  year ++ ['-'] ++ month ++ ['-'] ++ day ++ ['T'] ++ hour ++ [':'] ++ minute ++ [':'] ++ second ++
    fraction ++ "+00:00".toList

section

variable {year month day hour minute second fraction : Str}

theorem instantOf_stamp (hyear : year.length = 4) (hmonth : month.length = 2)
    (hday : day.length = 2) (hhour : hour.length = 2) (hminute : minute.length = 2)
    (hsecond : second.length = 2) (hfraction : fraction = [] ∨ fraction.head? = some '.') :
    instantOf (stamp year month day hour minute second fraction) =
      (dayOf (number year) (number month) (number day) * 86400 +
        (number hour * 3600 + number minute * 60 + number second : Nat)) * nanosPerSecond +
        (number fraction.tail * 10 ^ (9 - fraction.tail.length) : Nat) := by
  obtain ⟨m₁, m₂, rfl⟩ := List.length_eq_two.mp hmonth
  obtain ⟨d₁, d₂, rfl⟩ := List.length_eq_two.mp hday
  obtain ⟨h₁, h₂, rfl⟩ := List.length_eq_two.mp hhour
  obtain ⟨i₁, i₂, rfl⟩ := List.length_eq_two.mp hminute
  obtain ⟨s₁, s₂, rfl⟩ := List.length_eq_two.mp hsecond
  obtain ⟨y₁, rest, rfl⟩ := List.exists_cons_of_length_eq_add_one hyear
  obtain ⟨y₂, y₃, y₄, rfl⟩ := List.length_eq_three.mp (Nat.succ_inj.mp hyear)
  have hrest : fractionOf (stamp [y₁, y₂, y₃, y₄] [m₁, m₂] [d₁, d₂] [h₁, h₂] [i₁, i₂] [s₁, s₂]
      fraction) = fraction.tail := by
    obtain rfl | hdot := hfraction
    · simp [fractionOf, stamp]
    · obtain ⟨rest, rfl⟩ := List.head?_eq_some_iff.mp hdot
      simp [fractionOf, stamp]
  rw [instantOf, hrest]
  simp [field, stamp]

end

/-- The second of the day, and the nanosecond of the second. -/
def secondOfDay (t : DateTime) : Nat :=
  (timestamp t % 86400).toNat

def nanoOf (t : DateTime) : Nat :=
  (t % nanosPerSecond).toNat

theorem toRfc3339_eq (t : DateTime) : toRfc3339 t =
    stamp (yearText (yearOf t)) (digits 2 (civil (timestamp t / 86400)).2.1)
      (digits 2 (civil (timestamp t / 86400)).2.2) (digits 2 (secondOfDay t / 3600))
      (digits 2 (secondOfDay t / 60 % 60)) (digits 2 (secondOfDay t % 60))
      (fractionText (nanoOf t)) :=
  rfl

theorem fractionText_tail {n : Nat} (h : n < 10 ^ 9) :
    (fractionText n = [] ∨ (fractionText n).head? = some '.') ∧
      number (fractionText n).tail * 10 ^ (9 - (fractionText n).tail.length) = n := by
  unfold fractionText
  split
  · rename_i hzero
    exact ⟨.inl rfl, by simp [number, hzero]⟩
  split
  · refine ⟨.inr rfl, ?_⟩
    rw [List.tail_cons, number_digits, length_digits (by decide) (by omega)]
    omega
  split
  · refine ⟨.inr rfl, ?_⟩
    rw [List.tail_cons, number_digits, length_digits (by decide) (by omega)]
    omega
  · refine ⟨.inr rfl, ?_⟩
    rw [List.tail_cons, number_digits, length_digits (by decide) h]
    omega

theorem yearText_of_inYears {t : DateTime} (h : InYears t) :
    yearText (yearOf t) = digits 4 (yearOf t).toNat ∧ (digits 4 (yearOf t).toNat).length = 4 := by
  obtain ⟨hlow, hhigh⟩ := h
  rw [yearText, if_pos ⟨hlow, hhigh⟩]
  exact ⟨rfl, length_digits (by decide) (by omega)⟩

theorem instantOf_toRfc3339 {t : DateTime} (h : InYears t) : instantOf (toRfc3339 t) = t := by
  obtain ⟨hmonth, hday⟩ := civil_bounds (timestamp t / 86400)
  obtain ⟨htext, hlen⟩ := yearText_of_inYears h
  have hsecond : secondOfDay t < 86400 := by
    unfold secondOfDay
    omega
  have hnano : nanoOf t < 10 ^ 9 := by
    unfold nanoOf nanosPerSecond
    omega
  obtain ⟨hfraction, hnumber⟩ := fractionText_tail hnano
  rw [toRfc3339_eq, htext, instantOf_stamp hlen (length_digits (by decide) (by omega))
    (length_digits (by decide) (by omega)) (length_digits (by decide) (by omega))
    (length_digits (by decide) (by omega)) (length_digits (by decide) (by omega)) hfraction,
    hnumber]
  have hyear : ((yearOf t).toNat : Int) = yearOf t := Int.toNat_of_nonneg h.1
  have hclock : secondOfDay t / 3600 * 3600 + secondOfDay t / 60 % 60 * 60 + secondOfDay t % 60 =
      secondOfDay t := by omega
  have hday : timestamp t / 86400 * 86400 + secondOfDay t = timestamp t := by
    unfold secondOfDay
    omega
  have hnanos : timestamp t * nanosPerSecond + nanoOf t = t := by
    have hpos : 0 ≤ t % nanosPerSecond := Int.emod_nonneg t (by decide)
    rw [nanoOf, Int.toNat_of_nonneg hpos, timestamp, Int.ediv_mul_add_emod]
  simp only [number_digits, hyear, hclock]
  rw [yearOf, dayOf_civil, hday, hnanos]

theorem isDigit_of_mem_digits {width n : Nat} {c : Char} (h : c ∈ digits width n) :
    c.isDigit = true := by
  obtain h | h := List.mem_append.mp h
  · rw [List.eq_of_mem_replicate h]
    rfl
  · exact Nat.isDigit_of_mem_toDigits (by decide) (by decide) h

/-- A text begins with a digit if and only if its year has four of them. -/
theorem head_toRfc3339 (t : DateTime) :
    ∃ c, (toRfc3339 t).head? = some c ∧ (c.isDigit = true ↔ InYears t) := by
  have hyear : ∃ c rest, yearText (yearOf t) = c :: rest ∧ (c.isDigit = true ↔ InYears t) := by
    by_cases h : InYears t
    · obtain ⟨htext, hlen⟩ := yearText_of_inYears h
      have hpos : 0 < (digits 4 (yearOf t).toNat).length := by omega
      obtain ⟨c, rest, hdigits⟩ := List.exists_cons_of_length_pos hpos
      have hc : c.isDigit = true := isDigit_of_mem_digits (hdigits ▸ List.mem_cons_self)
      exact ⟨c, rest, htext.trans hdigits, by simp [h, hc]⟩
    · have hsign : yearText (yearOf t) =
          (if yearOf t < 0 then '-' else '+') :: digits 4 (yearOf t).natAbs := if_neg h
      refine ⟨_, _, hsign, ?_⟩
      split <;> simp [h]
  obtain ⟨c, rest, htext, hc⟩ := hyear
  exact ⟨c, by rw [toRfc3339_eq, stamp, htext]; rfl, hc⟩

/-- What was printed reads back if and only if its year has four digits. -/
theorem readRfc3339_toRfc3339 (t : DateTime) :
    readRfc3339 (toRfc3339 t) = if InYears t then some t else none := by
  by_cases h : InYears t
  · rw [readRfc3339, instantOf_toRfc3339 h, if_pos ⟨h, rfl⟩, if_pos h]
  · rw [if_neg h, readRfc3339, if_neg]
    rintro ⟨hyears, hsame⟩
    obtain ⟨c, hhead, hdigit⟩ := head_toRfc3339 t
    obtain ⟨d, hhead', hdigit'⟩ := head_toRfc3339 (instantOf (toRfc3339 t))
    rw [hsame, hhead] at hhead'
    cases hhead'
    exact h (hdigit.mp (hdigit'.mpr hyears))

end HearthVault.Calendar
