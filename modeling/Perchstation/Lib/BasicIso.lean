import Mathlib.Tactic.Linarith
import Mathlib.Data.Int.Order.Basic

/-!
# Basic ISO 8601 — instants as `20260527T120000Z`

The calendar is the proleptic Gregorian one: years are counted through the year 0 to negative ones,
and a day is counted from the first day of the year 0.  A year outside 0 to 9999 is written with its
sign.  Different instants have different texts, and no text is the beginning of another
(`basicIso_append_inj`).
-/

namespace BasicIso

/-! ## Padded decimals -/

/-- `n` in decimal, with leading zeros up to the width. -/
def padded (width n : ℕ) : List Char := (Nat.toDigits 10 n).leftpad width '0'

section Padded

variable {w n : ℕ}

theorem value_padded (w n : ℕ) : Nat.ofDigitChars 10 (padded w n) 0 = n := by
  unfold padded List.leftpad
  rw [Nat.ofDigitChars_append, Nat.ofDigitChars_replicate_zero, Nat.mul_zero,
    Nat.ofDigitChars_ten_toDigits]

theorem padded_injective (w : ℕ) : Function.Injective (padded w) := by
  intro n m h
  rw [← value_padded w n, h, value_padded]

theorem length_padded (hw : 0 < w) (hn : n < 10 ^ w) : (padded w n).length = w := by
  have hlen := (Nat.length_toDigits_le_iff (b := 10) (by decide) hw).mpr hn
  unfold padded
  rw [List.length_leftpad]
  omega

theorem isDigit_of_mem_padded {c : Char} (h : c ∈ padded w n) : c.isDigit := by
  unfold padded List.leftpad at h
  rcases List.mem_append.mp h with hzero | hdigit
  · rw [List.eq_of_mem_replicate hzero]
    decide
  · exact Nat.isDigit_of_mem_toDigits (by decide) (by decide) hdigit

end Padded

/-! ## The calendar -/

/-- The first day of a year. -/
def yearStart (y : ℤ) : ℤ := 365 * y + (y + 3) / 4 - (y + 99) / 100 + (y + 399) / 400

/-- The year of a day: a mean year is 365.2425 days long, which is off by a year at most. -/
def yearOf (d : ℤ) : ℤ :=
  if d < yearStart (400 * d / 146097) then 400 * d / 146097 - 1
  else if yearStart (400 * d / 146097 + 1) ≤ d then 400 * d / 146097 + 1
  else 400 * d / 146097

def isLeap (y : ℤ) : Bool := y % 4 = 0 ∧ (y % 100 ≠ 0 ∨ y % 400 = 0)

def monthLengths (leap : Bool) : List ℕ :=
  [31, if leap then 29 else 28, 31, 30, 31, 30, 31, 31, 30, 31, 30, 31]

/-- The month and the day of the month, both from 1 on, of the day `d` of a year. -/
def monthDay : List ℕ → ℕ → ℕ × ℕ
  | [], d => (1, d + 1)
  | n :: rest, d =>
    if d < n then (1, d + 1) else ((monthDay rest (d - n)).1 + 1, (monthDay rest (d - n)).2)

structure Date where
  year : ℤ
  month : ℕ
  day : ℕ
  deriving DecidableEq

def dateOf (d : ℤ) : Date where
  year := yearOf d
  month := (monthDay (monthLengths (isLeap (yearOf d))) (d - yearStart (yearOf d)).toNat).1
  day := (monthDay (monthLengths (isLeap (yearOf d))) (d - yearStart (yearOf d)).toNat).2

section Calendar

theorem yearStart_succ (y : ℤ) :
    yearStart (y + 1) = yearStart y + if isLeap y then 366 else 365 := by
  unfold yearStart isLeap
  split_ifs with h
  · simp only [decide_eq_true_eq] at h
    omega
  · simp only [decide_eq_true_eq] at h
    omega

/-- The year of a day is the one the day is in. -/
theorem yearOf_spec (d : ℤ) : yearStart (yearOf d) ≤ d ∧ d < yearStart (yearOf d + 1) := by
  unfold yearOf
  split_ifs with h1 h2
  · refine ⟨?_, by simpa using h1⟩
    unfold yearStart at h1 ⊢
    omega
  · refine ⟨h2, ?_⟩
    unfold yearStart at h2 ⊢
    omega
  · exact ⟨not_lt.mp h1, not_le.mp h2⟩

theorem monthDay_pos (l : List ℕ) (d : ℕ) : 1 ≤ (monthDay l d).1 := by
  cases l with
  | nil => exact le_rfl
  | cons n rest =>
    unfold monthDay
    split_ifs
    · exact le_rfl
    · exact Nat.le_add_left _ _

theorem monthDay_injective (l : List ℕ) : Function.Injective (monthDay l) := by
  induction l with
  | nil =>
    intro d d' h
    simpa [monthDay] using h
  | cons n rest ih =>
    intro d d' h
    have hpos := monthDay_pos rest (d - n)
    have hpos' := monthDay_pos rest (d' - n)
    unfold monthDay at h
    split_ifs at h with hd hd' hd'
    · simpa using h
    · have := congrArg Prod.fst h
      simp only at this
      omega
    · have := congrArg Prod.fst h
      simp only at this
      omega
    · obtain ⟨h1, h2⟩ := Prod.mk.inj h
      have := ih (Prod.ext (Nat.add_right_cancel h1) h2)
      omega

/-- Within the months, the month is one of them and the day no longer than the longest. -/
theorem monthDay_le {l : List ℕ} {d k : ℕ} (hl : ∀ n ∈ l, n ≤ k) (hd : d < l.sum) :
    (monthDay l d).1 ≤ l.length ∧ (monthDay l d).2 ≤ k := by
  induction l generalizing d with
  | nil => simp at hd
  | cons n rest ih =>
    unfold monthDay
    split_ifs with hn
    · have := hl n List.mem_cons_self
      exact ⟨by simp, by simp only; omega⟩
    · rw [List.sum_cons] at hd
      obtain ⟨h1, h2⟩ := ih (d := d - n) (fun m hm => hl m (List.mem_cons_of_mem _ hm)) (by omega)
      exact ⟨by simpa using h1, h2⟩

theorem dateOf_injective : Function.Injective dateOf := by
  intro d d' h
  obtain ⟨hyear, hmonth, hday⟩ := Date.mk.inj h
  rw [hyear] at hmonth hday
  have hoffset := monthDay_injective _ (Prod.ext hmonth hday)
  have h1 := (yearOf_spec d).1
  have h2 := (yearOf_spec d').1
  rw [hyear] at h1
  omega

theorem dateOf_lt (d : ℤ) : (dateOf d).month < 10 ^ 2 ∧ (dateOf d).day < 10 ^ 2 := by
  obtain ⟨h1, h2⟩ := yearOf_spec d
  rw [yearStart_succ] at h2
  have hlen : ∀ n ∈ monthLengths (isLeap (yearOf d)), n ≤ 31 := by
    cases isLeap (yearOf d) <;> decide
  have hsum : (d - yearStart (yearOf d)).toNat < (monthLengths (isLeap (yearOf d))).sum := by
    cases hleap : isLeap (yearOf d)
    · rw [hleap] at h2
      have : (monthLengths false).sum = 365 := by decide
      simp only [Bool.false_eq_true, if_false] at h2
      omega
    · rw [hleap] at h2
      have : (monthLengths true).sum = 366 := by decide
      simp only [if_true] at h2
      omega
  obtain ⟨hm, hd⟩ := monthDay_le hlen hsum
  have hcount : (monthLengths (isLeap (yearOf d))).length = 12 := rfl
  unfold dateOf
  simp only
  omega

end Calendar

/-! ## The text -/

/-- A year: four digits, and a sign if that is not all. -/
def yearText (y : ℤ) : List Char :=
  if 0 ≤ y ∧ y < 10000 then padded 4 y.toNat
  else (if y < 0 then '-' else '+') :: padded 4 y.natAbs

def dateText (d : ℤ) : List Char :=
  yearText (dateOf d).year ++ padded 2 (dateOf d).month ++ padded 2 (dateOf d).day

/-- The time of day, `t` seconds after midnight. -/
def timeText (t : ℕ) : List Char :=
  padded 2 (t / 3600) ++ padded 2 (t / 60 % 60) ++ padded 2 (t % 60) ++ ['Z']

/-- The first day of the year 1970. -/
def epochDay : ℤ := 719528

/-- The text of the instant `s` seconds after the epoch. -/
def basicIso (s : ℤ) : List Char :=
  dateText (epochDay + s / 86400) ++ 'T' :: timeText (s % 86400).toNat

example : basicIso 1779883200 = "20260527T120000Z".toList := by decide

section Text

theorem isDigit_or_sign_of_mem_yearText {c : Char} {y : ℤ} (h : c ∈ yearText y) :
    c.isDigit ∨ c = '-' ∨ c = '+' := by
  unfold yearText at h
  split_ifs at h with h1 h2
  · exact Or.inl (isDigit_of_mem_padded h)
  · rcases List.mem_cons.mp h with rfl | h
    · exact Or.inr (Or.inl rfl)
    · exact Or.inl (isDigit_of_mem_padded h)
  · rcases List.mem_cons.mp h with rfl | h
    · exact Or.inr (Or.inr rfl)
    · exact Or.inl (isDigit_of_mem_padded h)

theorem yearText_injective : Function.Injective yearText := by
  -- a sign is no digit
  have hsign : ∀ {c : Char} {l : List Char} {n : ℕ}, c.isDigit = false → padded 4 n ≠ c :: l := by
    intro c l n hc h
    have := isDigit_of_mem_padded (w := 4) (n := n) (h ▸ List.mem_cons_self)
    simp [hc] at this
  intro y y' h
  unfold yearText at h
  split_ifs at h with h1 h2 h3 h4 h5 h6
  · have := padded_injective 4 h
    omega
  · exact (hsign (by decide) h).elim
  · exact (hsign (by decide) h).elim
  · exact (hsign (by decide) h.symm).elim
  · have := padded_injective 4 (List.cons.inj h).2
    omega
  · exact absurd (List.cons.inj h).1 (by decide)
  · exact (hsign (by decide) h.symm).elim
  · exact absurd (List.cons.inj h).1 (by decide)
  · have := padded_injective 4 (List.cons.inj h).2
    omega

/-- Two lists that agree and have the mark for the first time are the same before and after it. -/
theorem append_mark_inj {α : Type} {a : α} {x y z w : List α} (hx : a ∉ x) (hy : a ∉ y)
    (h : x ++ a :: z = y ++ a :: w) : x = y ∧ z = w := by
  induction x generalizing y with
  | nil =>
    cases y with
    | nil => exact ⟨rfl, (List.cons.inj h).2⟩
    | cons c y => exact (hy ((List.cons.inj h).1 ▸ List.mem_cons_self)).elim
  | cons b x ih =>
    cases y with
    | nil => exact (hx ((List.cons.inj h).1 ▸ List.mem_cons_self)).elim
    | cons c y =>
      obtain ⟨rfl, htail⟩ := List.cons.inj h
      obtain ⟨rfl, rfl⟩ := ih (fun hin => hx (List.mem_cons_of_mem _ hin))
        (fun hin => hy (List.mem_cons_of_mem _ hin)) htail
      exact ⟨rfl, rfl⟩

theorem length_padded_two {n m : ℕ} (hn : n < 100) (hm : m < 100) :
    (padded 2 n).length = (padded 2 m).length :=
  (length_padded (by decide) hn).trans (length_padded (by decide) hm).symm

theorem dateText_injective : Function.Injective dateText := by
  intro d d' h
  obtain ⟨hm, hd⟩ := dateOf_lt d
  obtain ⟨hm', hd'⟩ := dateOf_lt d'
  obtain ⟨hrest, hday⟩ := List.append_inj' h (length_padded_two hd hd')
  obtain ⟨hyear, hmonth⟩ := List.append_inj' hrest (length_padded_two hm hm')
  have h1 := yearText_injective hyear
  have h2 := padded_injective 2 hmonth
  have h3 := padded_injective 2 hday
  apply dateOf_injective
  cases hdate : dateOf d
  cases hdate' : dateOf d'
  rw [hdate, hdate'] at h1 h2 h3
  simp only at h1 h2 h3
  rw [h1, h2, h3]

theorem mark_notMem_dateText (d : ℤ) : 'T' ∉ dateText d := by
  have hpadded : ∀ {w n : ℕ}, 'T' ∉ padded w n := fun hin =>
    absurd (isDigit_of_mem_padded hin) (by decide)
  intro hin
  rcases List.mem_append.mp hin with hin | hin
  · rcases List.mem_append.mp hin with hin | hin
    · rcases isDigit_or_sign_of_mem_yearText hin with hd | hs | hs
      · exact absurd hd (by decide)
      · exact absurd hs (by decide)
      · exact absurd hs (by decide)
    · exact hpadded hin
  · exact hpadded hin

theorem timeText_append_inj {t t' : ℕ} {r r' : List Char} (ht : t < 86400) (ht' : t' < 86400)
    (h : timeText t ++ r = timeText t' ++ r') : t = t' ∧ r = r' := by
  unfold timeText at h
  simp only [List.append_assoc] at h
  obtain ⟨hhour, h⟩ := List.append_inj h (length_padded_two (by omega) (by omega))
  obtain ⟨hmin, h⟩ := List.append_inj h (length_padded_two (by omega) (by omega))
  obtain ⟨hsec, h⟩ := List.append_inj h (length_padded_two (by omega) (by omega))
  have h1 := padded_injective 2 hhour
  have h2 := padded_injective 2 hmin
  have h3 := padded_injective 2 hsec
  exact ⟨by omega, (List.cons.inj h).2⟩

/-- The instant can be read off the beginning of a text. -/
theorem basicIso_append_inj {s s' : ℤ} {r r' : List Char}
    (h : basicIso s ++ r = basicIso s' ++ r') : s = s' ∧ r = r' := by
  unfold basicIso at h
  rw [List.append_assoc, List.append_assoc, List.cons_append, List.cons_append] at h
  obtain ⟨hdate, htime⟩ :=
    append_mark_inj (mark_notMem_dateText _) (mark_notMem_dateText _) h
  have hday := dateText_injective hdate
  obtain ⟨hsec, hr⟩ := timeText_append_inj (by omega) (by omega) htime
  exact ⟨by omega, hr⟩

end Text

end BasicIso
