import Perchstation.Lib.BasicIso

/-!
# RFC 3339 — instants as `2026-05-27T12:00:00.250Z`

The calendar is that of `BasicIso`.  The fraction is left out if there is none, and has three, six or
nine digits otherwise, as few as it takes.  Different instants have different texts (`text_injective`).
-/

namespace Rfc3339

open BasicIso

def dateText (d : ℤ) : List Char :=
  yearText (dateOf d).year ++ ('-' :: padded 2 (dateOf d).month ++ '-' :: padded 2 (dateOf d).day)

/-- The time of day, `t` seconds after midnight. -/
def timeText (t : ℕ) : List Char :=
  padded 2 (t / 3600) ++ ':' :: padded 2 (t / 60 % 60) ++ ':' :: padded 2 (t % 60)

/-- The nanoseconds of a second. -/
def fractionText (n : ℕ) : List Char :=
  if n = 0 then []
  else if n % 1000000 = 0 then '.' :: padded 3 (n / 1000000)
  else if n % 1000 = 0 then '.' :: padded 6 (n / 1000)
  else '.' :: padded 9 n

/-- The text of the instant `s` seconds and `n` nanoseconds after the epoch. -/
def text (s : ℤ) (n : ℕ) : List Char :=
  dateText (epochDay + s / 86400) ++ 'T' :: timeText (s % 86400).toNat ++ fractionText n ++ ['Z']

example : text 1779883200 250000000 = "2026-05-27T12:00:00.250Z".toList := by decide

theorem dateText_injective : Function.Injective dateText := by
  intro d d' h
  obtain ⟨hm, hd⟩ := dateOf_lt d
  obtain ⟨hm', hd'⟩ := dateOf_lt d'
  have hlen : ('-' :: padded 2 (dateOf d).month ++ '-' :: padded 2 (dateOf d).day).length =
      ('-' :: padded 2 (dateOf d').month ++ '-' :: padded 2 (dateOf d').day).length := by
    simp [length_padded_two hm hm', length_padded_two hd hd']
  obtain ⟨hyear, hrest⟩ := List.append_inj' h hlen
  obtain ⟨hmonth, hday⟩ := List.append_inj (List.cons.inj hrest).2 (length_padded_two hm hm')
  have h1 := yearText_injective hyear
  have h2 := padded_injective 2 hmonth
  have h3 := padded_injective 2 (List.cons.inj hday).2
  apply dateOf_injective
  cases hdate : dateOf d
  cases hdate' : dateOf d'
  rw [hdate, hdate'] at h1 h2 h3
  simp only at h1 h2 h3
  rw [h1, h2, h3]

theorem mark_notMem_dateText (d : ℤ) : 'T' ∉ dateText d := by
  have hpadded : ∀ {w n : ℕ}, 'T' ∉ padded w n := fun hin =>
    absurd (isDigit_of_mem_padded hin) (by decide)
  have hyear : 'T' ∉ yearText (dateOf d).year := by
    intro hin
    rcases isDigit_or_sign_of_mem_yearText hin with hd | hs | hs
    · exact absurd hd (by decide)
    · exact absurd hs (by decide)
    · exact absurd hs (by decide)
  simp [dateText, hpadded, hyear]

theorem timeText_append_inj {t t' : ℕ} {r r' : List Char} (ht : t < 86400) (ht' : t' < 86400)
    (h : timeText t ++ r = timeText t' ++ r') : t = t' ∧ r = r' := by
  unfold timeText at h
  simp only [List.append_assoc, List.cons_append] at h
  obtain ⟨hhour, h⟩ := List.append_inj h (length_padded_two (by omega) (by omega))
  obtain ⟨hmin, h⟩ := List.append_inj (List.cons.inj h).2 (length_padded_two (by omega) (by omega))
  obtain ⟨hsec, hr⟩ := List.append_inj (List.cons.inj h).2 (length_padded_two (by omega) (by omega))
  have h1 := padded_injective 2 hhour
  have h2 := padded_injective 2 hmin
  have h3 := padded_injective 2 hsec
  exact ⟨by omega, hr⟩

/-- The number of digits tells which unit the fraction is in. -/
theorem fractionText_injective {n m : ℕ} (hn : n < 1000000000) (hm : m < 1000000000)
    (h : fractionText n = fractionText m) : n = m := by
  have hlength : ∀ {w k w' k' : ℕ}, 0 < w → 0 < w' → k < 10 ^ w → k' < 10 ^ w' →
      '.' :: padded w k = '.' :: padded w' k' → w = w' ∧ k = k' := by
    intro w k w' k' hw hw' hk hk' heq
    have htail := (List.cons.inj heq).2
    have hlen := congrArg List.length htail
    rw [length_padded hw hk, length_padded hw' hk'] at hlen
    subst hlen
    exact ⟨rfl, padded_injective _ htail⟩
  unfold fractionText at h
  split_ifs at h with h1 h2 h3 h4 h5 h6 h7
  all_goals first
    | omega
    | exact absurd h (List.cons_ne_nil _ _)
    | exact absurd h.symm (List.cons_ne_nil _ _)
    | obtain ⟨hw, hk⟩ := hlength (by decide) (by decide) (by omega) (by omega) h
      omega

theorem text_injective {s s' : ℤ} {n n' : ℕ} (hn : n < 1000000000) (hn' : n' < 1000000000)
    (h : text s n = text s' n') : s = s' ∧ n = n' := by
  have h := List.append_cancel_right h
  simp only [List.append_assoc, List.cons_append] at h
  obtain ⟨hdate, htime⟩ := append_mark_inj (mark_notMem_dateText _) (mark_notMem_dateText _) h
  have hday := dateText_injective hdate
  obtain ⟨hsec, hfraction⟩ := timeText_append_inj (by omega) (by omega) htime
  exact ⟨by omega, fractionText_injective hn hn' hfraction⟩

end Rfc3339
