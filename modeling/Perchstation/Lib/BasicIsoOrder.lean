import Mathlib.Data.List.Lex
import Perchstation.Lib.BasicIso

/-!
# Basic ISO order — when the texts are in the order of what they stand for

Numbers padded to a width are in the order of their values as long as no power of ten lies between
them that has more digits than the width (`padded_lt_padded`); at such a power the order is broken
(`padded_boundary`).  Instants of the years 0 to 9999 are in the order of their texts
(`basicIso_append_lt`).
-/

namespace BasicIso

/-! ## Lists of one length -/

/-- What follows two lists of one length only matters where they are the same. -/
theorem append_lt_append {x x' : List Char} (y y' : List Char) (hlen : x.length = x'.length)
    (h : x < x') : x ++ y < x' ++ y' := by
  induction x generalizing x' with
  | nil =>
    have hnil : x' = [] := List.length_eq_zero_iff.mp hlen.symm
    rw [hnil] at h
    exact absurd h (List.lt_irrefl [])
  | cons c x ih =>
    cases x' with
    | nil => simp at hlen
    | cons c' x' =>
      rw [List.cons_append, List.cons_append, List.cons_lt_cons_iff]
      rcases List.cons_lt_cons_iff.mp h with hc | ⟨hc, hx⟩
      · exact Or.inl hc
      · exact Or.inr ⟨hc, ih (by simpa using hlen) hx⟩

/-! ## Padded decimals -/

theorem ofDigitChars_lt {l : List Char} (hl : ∀ c ∈ l, c.isDigit) :
    Nat.ofDigitChars 10 l 0 < 10 ^ l.length := by
  induction l with
  | nil => simp
  | cons c l ih =>
    have hc := hl c List.mem_cons_self
    have hlow := ih fun d hd => hl d (List.mem_cons_of_mem _ hd)
    have hdigit : c.toNat - '0'.toNat ≤ 9 := by
      have := Char.isDigit_iff_toNat.mp hc
      have h9 : '9'.toNat = '0'.toNat + 9 := rfl
      omega
    rw [Nat.ofDigitChars_cons, Nat.ofDigitChars_eq_ofDigitChars_zero, Nat.mul_zero, Nat.zero_add,
      List.length_cons, pow_succ]
    have hmul := Nat.mul_le_mul_left (10 ^ l.length) hdigit
    omega

/-- Digit lists of one length are in the order of their values. -/
theorem lt_of_ofDigitChars_lt {l l' : List Char} (hl : ∀ c ∈ l, c.isDigit)
    (hl' : ∀ c ∈ l', c.isDigit) (hlen : l.length = l'.length)
    (h : Nat.ofDigitChars 10 l 0 < Nat.ofDigitChars 10 l' 0) : l < l' := by
  induction l generalizing l' with
  | nil =>
    have hnil : l' = [] := List.length_eq_zero_iff.mp hlen.symm
    rw [hnil] at h
    exact absurd h (lt_irrefl _)
  | cons c l ih =>
    cases l' with
    | nil => simp at hlen
    | cons c' l' =>
      have hc := Char.isDigit_iff_toNat.mp (hl c List.mem_cons_self)
      have hc' := Char.isDigit_iff_toNat.mp (hl' c' List.mem_cons_self)
      have hrest := fun d hd => hl d (List.mem_cons_of_mem c hd)
      have hrest' := fun d hd => hl' d (List.mem_cons_of_mem c' hd)
      have hlen' : l.length = l'.length := by simpa using hlen
      have hlow := ofDigitChars_lt hrest'
      rw [Nat.ofDigitChars_cons, Nat.ofDigitChars_cons, Nat.ofDigitChars_eq_ofDigitChars_zero,
        Nat.ofDigitChars_eq_ofDigitChars_zero (l := l'), hlen', Nat.mul_zero, Nat.zero_add,
        Nat.zero_add] at h
      rw [List.cons_lt_cons_iff]
      rcases lt_trichotomy c.toNat c'.toNat with hlt | heq | hgt
      · exact Or.inl hlt
      · obtain rfl := Char.toNat_inj.mp heq
        exact Or.inr ⟨rfl, ih hrest hrest' hlen' (by omega)⟩
      · -- the first digit decides against the order
        have hmul := Nat.mul_le_mul_left (10 ^ l'.length)
          (show c'.toNat - '0'.toNat + 1 ≤ c.toNat - '0'.toNat by omega)
        rw [Nat.mul_add] at hmul
        omega

section Padded

variable {w i j : ℕ}

theorem length_padded_eq (w n : ℕ) : (padded w n).length = max w (Nat.toDigits 10 n).length := by
  unfold padded
  rw [List.length_leftpad]

/-- Padded numbers are of one length if no power of ten beyond the width comes between them. -/
theorem length_padded_eq_of_no_power (hw : 0 < w) (h : i < j)
    (hpow : ∀ k, w ≤ k → 10 ^ k ≤ j → 10 ^ k ≤ i) : (padded w i).length = (padded w j).length := by
  have hdigits : ∀ n k, 0 < k → ((Nat.toDigits 10 n).length ≤ k ↔ n < 10 ^ k) := fun n k hk =>
    Nat.length_toDigits_le_iff (by decide) hk
  rw [length_padded_eq, length_padded_eq]
  have hle : (Nat.toDigits 10 i).length ≤ max w (Nat.toDigits 10 j).length := by
    rw [hdigits i _ (by omega)]
    exact h.trans ((hdigits j _ (by omega)).mp (le_max_right _ _))
  have hge : (Nat.toDigits 10 j).length ≤ max w (Nat.toDigits 10 i).length := by
    rw [hdigits j _ (by omega)]
    by_contra hj
    have hi := hpow _ (le_max_left _ _) (not_lt.mp hj)
    exact absurd ((hdigits i _ (by omega)).mp (le_max_right w _)) (not_lt.mpr hi)
  omega

/-- And they are in order. -/
theorem padded_lt_padded (hw : 0 < w) (h : i < j) (hpow : ∀ k, w ≤ k → 10 ^ k ≤ j → 10 ^ k ≤ i) :
    padded w i < padded w j :=
  lt_of_ofDigitChars_lt (fun _ => isDigit_of_mem_padded) (fun _ => isDigit_of_mem_padded)
    (length_padded_eq_of_no_power hw h hpow) (by rw [value_padded, value_padded]; exact h)

theorem toDigits_pow (k : ℕ) : Nat.toDigits 10 (10 ^ k) = '1' :: List.replicate k '0' := by
  induction k with
  | zero => decide
  | succ k ih =>
    have hstep := Nat.toDigits_append_toDigits (b := 10) (n := 10 ^ k) (d := 0) (by decide)
      (Nat.pow_pos (by decide)) (by decide)
    rw [show 10 ^ (k + 1) = 10 * 10 ^ k + 0 by rw [pow_succ]; omega, ← hstep, ih,
      List.replicate_succ']
    rfl

theorem toDigits_pow_pred (k : ℕ) :
    Nat.toDigits 10 (10 ^ (k + 1) - 1) = List.replicate (k + 1) '9' := by
  induction k with
  | zero => decide
  | succ k ih =>
    have hpos : 10 ≤ 10 ^ (k + 1) := Nat.le_self_pow (by omega) 10
    have hstep := Nat.toDigits_append_toDigits (b := 10) (n := 10 ^ (k + 1) - 1) (d := 9) (by decide)
      (by omega) (by decide)
    rw [show 10 ^ (k + 1 + 1) - 1 = 10 * (10 ^ (k + 1) - 1) + 9 by rw [pow_succ 10 (k + 1)]; omega,
      ← hstep, ih, List.replicate_succ' (n := k + 1)]
    rfl

/-- A power of ten beyond the width comes before its predecessor. -/
theorem padded_boundary {k : ℕ} (hw : 0 < w) (hk : w ≤ k) :
    padded w (10 ^ k) < padded w (10 ^ k - 1) := by
  obtain ⟨k, rfl⟩ := Nat.exists_eq_succ_of_ne_zero (show k ≠ 0 by omega)
  have hone : padded w (10 ^ (k + 1)) = '1' :: List.replicate (k + 1) '0' := by
    unfold padded List.leftpad
    rw [toDigits_pow, List.length_cons, List.length_replicate, Nat.sub_eq_zero_of_le (by omega)]
    rfl
  have hnine : padded w (10 ^ (k + 1) - 1) = '9' :: List.replicate k '9' := by
    unfold padded List.leftpad
    rw [toDigits_pow_pred, List.length_replicate, Nat.sub_eq_zero_of_le (by omega)]
    rfl
  rw [Nat.succ_eq_add_one, hone, hnine, List.cons_lt_cons_iff]
  exact Or.inl (by decide)

theorem padded_two_lt (h : i < j) (hj : j < 100) : padded 2 i < padded 2 j := by
  refine padded_lt_padded (by decide) h fun k hk hle => ?_
  have hpow : 10 ^ 2 ≤ 10 ^ k := Nat.pow_le_pow_right (by decide) hk
  omega

end Padded

/-! ## Instants -/

section Instants

variable {d d' s s' : ℤ}

theorem yearStart_lt {y y' : ℤ} (h : y < y') : yearStart y < yearStart y' := by
  unfold yearStart
  omega

theorem yearOf_lt_iff {y : ℤ} : yearOf d < y ↔ d < yearStart y := by
  obtain ⟨hlow, hhigh⟩ := yearOf_spec d
  constructor
  · intro h
    rcases (Int.add_one_le_of_lt h).lt_or_eq with hlt | heq
    · exact hhigh.trans (yearStart_lt hlt)
    · rwa [heq] at hhigh
  · intro h
    by_contra hle
    rcases (not_lt.mp hle).lt_or_eq with hlt | heq
    · exact absurd (h.trans (yearStart_lt hlt)) (not_lt.mpr hlow)
    · rw [← heq] at hlow
      omega

/-- The months and the days of a year are in order. -/
theorem monthDay_lt (l : List ℕ) {m n : ℕ} (h : m < n) :
    (monthDay l m).1 < (monthDay l n).1 ∨
      (monthDay l m).1 = (monthDay l n).1 ∧ (monthDay l m).2 < (monthDay l n).2 := by
  induction l generalizing m n with
  | nil => exact Or.inr ⟨rfl, Nat.succ_lt_succ h⟩
  | cons k rest ih =>
    have hpos := monthDay_pos rest (n - k)
    unfold monthDay
    split_ifs with hm hn hn
    · exact Or.inr ⟨rfl, Nat.succ_lt_succ h⟩
    · exact Or.inl (by simp only; omega)
    · omega
    · rcases ih (show m - k < n - k by omega) with hlt | ⟨heq, hlt⟩
      · exact Or.inl (Nat.succ_lt_succ hlt)
      · exact Or.inr ⟨congrArg (· + 1) heq, hlt⟩

/-- A day of the years 0 to 9999. -/
def FourDigitYear (d : ℤ) : Prop := 0 ≤ d ∧ d < yearStart 10000

theorem yearOf_bounds (h : FourDigitYear d) : 0 ≤ yearOf d ∧ yearOf d < 10000 := by
  refine ⟨?_, yearOf_lt_iff.mpr h.2⟩
  by_contra hneg
  have := yearOf_lt_iff.mp (not_le.mp hneg)
  have h0 : yearStart 0 = 0 := by decide
  have := h.1
  omega

theorem yearText_eq (h : FourDigitYear d) : yearText (yearOf d) = padded 4 (yearOf d).toNat :=
  if_pos (yearOf_bounds h)

theorem length_dateText (h : FourDigitYear d) : (dateText d).length = 8 := by
  obtain ⟨hlow, hhigh⟩ := yearOf_bounds h
  obtain ⟨hm, hd⟩ := dateOf_lt d
  unfold dateText
  rw [List.length_append, List.length_append, length_padded (by decide) hm,
    length_padded (by decide) hd]
  show (yearText (yearOf d)).length + 2 + 2 = 8
  rw [yearText_eq h, length_padded (by decide) (by omega)]

theorem dateText_lt (h : FourDigitYear d) (h' : FourDigitYear d') (hlt : d < d') :
    dateText d < dateText d' := by
  obtain ⟨hlow, hhigh⟩ := yearOf_bounds h
  obtain ⟨hlow', hhigh'⟩ := yearOf_bounds h'
  obtain ⟨hm, hd⟩ := dateOf_lt d
  obtain ⟨hm', hd'⟩ := dateOf_lt d'
  have hyears : (padded 4 (yearOf d).toNat).length = (padded 4 (yearOf d').toNat).length := by
    rw [length_padded (by decide) (by omega), length_padded (by decide) (by omega)]
  unfold dateText
  show yearText (yearOf d) ++ _ ++ _ < yearText (yearOf d') ++ _ ++ _
  rw [yearText_eq h, yearText_eq h', List.append_assoc, List.append_assoc]
  have hle : yearOf d ≤ yearOf d' := by
    have := yearOf_lt_iff.mpr (hlt.trans (yearOf_spec d').2)
    omega
  rcases hle.lt_or_eq with hyear | hyear
  · refine append_lt_append _ _ hyears (padded_lt_padded (by decide) (by omega) fun k hk hpow => ?_)
    have : 10 ^ 4 ≤ 10 ^ k := Nat.pow_le_pow_right (by decide) hk
    omega
  · rw [hyear]
    refine List.append_left_lt ?_
    -- in the same year the months decide, then the days
    have hstart := (yearOf_spec d).1
    have hoffset := monthDay_lt (monthLengths (isLeap (yearOf d)))
      (show (d - yearStart (yearOf d)).toNat < (d' - yearStart (yearOf d)).toNat by omega)
    have hdate : ∀ e, yearOf e = yearOf d →
        ((dateOf e).month, (dateOf e).day) =
          monthDay (monthLengths (isLeap (yearOf d))) (e - yearStart (yearOf d)).toNat := by
      intro e he
      unfold dateOf
      rw [he]
    rw [← hdate d rfl, ← hdate d' hyear.symm] at hoffset
    rcases hoffset with hmonth | ⟨hmonth, hday⟩
    · exact append_lt_append _ _ (length_padded_two hm hm') (padded_two_lt hmonth hm')
    · have hmonth' : (dateOf d).month = (dateOf d').month := hmonth
      rw [hmonth']
      exact List.append_left_lt (padded_two_lt hday hd')

theorem length_timeText {t : ℕ} (h : t < 86400) : (timeText t).length = 7 := by
  unfold timeText
  rw [List.length_append, List.length_append, List.length_append,
    length_padded (by decide) (show t / 3600 < 10 ^ 2 by omega),
    length_padded (by decide) (show t / 60 % 60 < 10 ^ 2 by omega),
    length_padded (by decide) (show t % 60 < 10 ^ 2 by omega)]
  rfl

theorem timeText_lt {t t' : ℕ} (h' : t' < 86400) (hlt : t < t') : timeText t < timeText t' := by
  unfold timeText
  simp only [List.append_assoc]
  have hhours := length_padded_two (show t / 3600 < 100 by omega) (show t' / 3600 < 100 by omega)
  have hmins := length_padded_two (show t / 60 % 60 < 100 by omega)
    (show t' / 60 % 60 < 100 by omega)
  have hsecs := length_padded_two (show t % 60 < 100 by omega) (show t' % 60 < 100 by omega)
  rcases Nat.lt_or_ge (t / 3600) (t' / 3600) with hhour | hhour
  · exact append_lt_append _ _ hhours (padded_two_lt hhour (by omega))
  · rw [show t / 3600 = t' / 3600 by omega]
    refine List.append_left_lt ?_
    rcases Nat.lt_or_ge (t / 60 % 60) (t' / 60 % 60) with hmin | hmin
    · exact append_lt_append _ _ hmins (padded_two_lt hmin (by omega))
    · rw [show t / 60 % 60 = t' / 60 % 60 by omega]
      refine List.append_left_lt ?_
      exact append_lt_append _ _ hsecs (padded_two_lt (by omega) (by omega))

/-- The instant `s` seconds after the epoch is in the years 0 to 9999. -/
def InFourDigitYear (s : ℤ) : Prop := FourDigitYear (epochDay + s / 86400)

theorem length_basicIso (h : InFourDigitYear s) : (basicIso s).length = 16 := by
  unfold basicIso
  rw [List.length_append, List.length_cons, length_dateText h, length_timeText (by omega)]

/-- The texts of different instants are in their order, whatever follows. -/
theorem basicIso_append_lt (h : InFourDigitYear s) (h' : InFourDigitYear s') (hlt : s < s')
    (r r' : List Char) : basicIso s ++ r < basicIso s' ++ r' := by
  refine append_lt_append r r' ((length_basicIso h).trans (length_basicIso h').symm) ?_
  unfold basicIso
  rcases (show s / 86400 ≤ s' / 86400 by omega).lt_or_eq with hday | hday
  · exact append_lt_append _ _ ((length_dateText h).trans (length_dateText h').symm)
      (dateText_lt h h' (by omega))
  · rw [hday]
    refine List.append_left_lt (List.cons_lt_cons_self.mpr ?_)
    exact timeText_lt (by omega) (by omega)

end Instants

end BasicIso
