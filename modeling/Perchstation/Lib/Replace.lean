import Mathlib.Data.List.Infix

/-!
# Replace — replacing the occurrences of a word

`replace w p t` puts `p` in the place of every occurrence of `w` in `t`, the occurrences found from
left to right without overlaps.  `pieces w 0 t` are the stretches of `t` between them.  A word that
`p` can take no part in (`Apart p v`) occurs in the result only inside one of the pieces.
-/

namespace Replace

variable {α : Type}

/-! ## Lists in a row -/

section Rows

variable {p v : List α}

theorem intercalate_cons_of_ne {x : List α} {xs : List (List α)} (h : xs ≠ []) :
    List.intercalate p (x :: xs) = x ++ p ++ List.intercalate p xs := by
  cases xs with
  | nil => exact absurd rfl h
  | cons y ys => simp [List.intercalate, List.intersperse]

theorem not_prefix_of_ne {a b : α} {x : List α} (h : a ≠ b) : ¬ [a] <+: b :: x :=
  fun hpre => h (List.cons_prefix_cons.mp hpre).1

/-- No occurrence of `v` has a part in `p`. -/
def Apart (p v : List α) : Prop := ∀ x y, v <:+: x ++ p ++ y → v <:+: x ∨ v <:+: y

/-- An element that `v` does not have cuts its occurrences off. -/
theorem infix_or_infix_of_notMem {a : α} {x y : List α} (ha : a ∉ v) (h : v <:+: x ++ a :: y) :
    v <:+: x ∨ v <:+: y := by
  rcases List.infix_append_iff_ne_nil.mp h with h | h | ⟨l, r, hl, hr, rfl, hlx, hry⟩
  · exact Or.inl h
  · rcases List.infix_cons_iff.mp h with h | h
    · cases v with
      | nil => exact Or.inl List.nil_infix
      | cons b v =>
        obtain rfl := (List.cons_prefix_cons.mp h).1
        exact absurd List.mem_cons_self ha
    · exact Or.inr h
  · cases r with
    | nil => exact absurd rfl hr
    | cons b r =>
      obtain rfl := (List.cons_prefix_cons.mp hry).1
      exact absurd (List.mem_append_right _ List.mem_cons_self) ha

/-- A list between two elements that `v` does not have. -/
theorem apart_of_fences {a b : α} {m : List α} (ha : a ∉ v) (hb : b ∉ v) (hm : ¬ v <:+: m) :
    Apart (a :: m ++ [b]) v := by
  intro x y h
  have hcut : v <:+: x ++ a :: (m ++ b :: y) := by simpa using h
  rcases infix_or_infix_of_notMem ha hcut with h | h
  · exact Or.inl h
  · rcases infix_or_infix_of_notMem hb h with h | h
    · exact absurd h hm
    · exact Or.inr h

theorem Apart.of_intercalate (h : Apart p v) (hv : v ≠ []) :
    ∀ {xs : List (List α)}, v <:+: List.intercalate p xs → ∃ x ∈ xs, v <:+: x
  | [], hin => absurd (List.infix_nil.mp hin) hv
  | [x], hin => ⟨x, List.mem_singleton_self x, by simpa [List.intercalate] using hin⟩
  | x :: y :: xs, hin => by
    rw [intercalate_cons_of_ne (by simp)] at hin
    rcases h _ _ hin with hin | hin
    · exact ⟨x, List.mem_cons_self, hin⟩
    · obtain ⟨z, hz, hvz⟩ := Apart.of_intercalate h hv hin
      exact ⟨z, List.mem_cons_of_mem _ hz, hvz⟩

end Rows

/-! ## Replacement -/

variable [DecidableEq α]

/-- Put `a` in front of the first piece. -/
def consHead (a : α) : List (List α) → List (List α)
  | [] => [[a]]
  | x :: xs => (a :: x) :: xs

/-- The pieces of a text between the occurrences of `w`, with `k` elements left to skip of the last
occurrence found. -/
def pieces (w : List α) : ℕ → List α → List (List α)
  | _, [] => [[]]
  | k + 1, _ :: t => pieces w k t
  | 0, a :: t =>
    if w.isPrefixOf (a :: t) then [] :: pieces w (w.length - 1) t else consHead a (pieces w 0 t)

/-- `t` with `p` in the place of every occurrence of `w`. -/
def replace (w p t : List α) : List α := List.intercalate p (pieces w 0 t)

example : replace [1, 1] [7] [1, 1, 1, 2, 1, 1] = [7, 1, 2, 7] := by decide

section Pieces

variable {w t x : List α} {xs : List (List α)} {k : ℕ}

theorem pieces_skip (w : List α) (k : ℕ) (t : List α) : pieces w k t = pieces w 0 (t.drop k) := by
  induction k generalizing t with
  | zero => rfl
  | succ k ih =>
    cases t with
    | nil => rfl
    | cons a t => exact ih t

/-- The text starts with an occurrence of `w`. -/
theorem pieces_of_found (hw : w ≠ []) (h : w <+: t) :
    pieces w 0 t = [] :: pieces w 0 (t.drop w.length) := by
  cases t with
  | nil => exact absurd (List.prefix_nil.mp h) hw
  | cons a t =>
    have hlen : w.length - 1 + 1 = w.length := Nat.succ_pred_eq_of_pos (List.length_pos_iff.mpr hw)
    rw [pieces, if_pos (List.isPrefixOf_iff_prefix.mpr h), pieces_skip, ← hlen, List.drop_succ_cons,
      Nat.add_sub_cancel]

/-- No occurrence of `w` starts here. -/
theorem pieces_of_kept {a : α} (h : ¬ w <+: a :: t) :
    pieces w 0 (a :: t) = consHead a (pieces w 0 t) := by
  rw [pieces, if_neg (mt List.isPrefixOf_iff_prefix.mp h)]

theorem exists_pieces (w t : List α) : ∃ x xs, pieces w 0 t = x :: xs := by
  cases t with
  | nil => exact ⟨[], [], rfl⟩
  | cons a t =>
    rw [pieces]
    split_ifs
    · exact ⟨_, _, rfl⟩
    · cases pieces w 0 t with
      | nil => exact ⟨_, _, rfl⟩
      | cons x xs => exact ⟨_, _, rfl⟩

/-- Up to the first occurrence of a single element. -/
theorem pieces_singleton {a : α} {rest : List α} (h : a ∉ t) :
    pieces [a] 0 (t ++ a :: rest) = t :: pieces [a] 0 rest := by
  induction t with
  | nil =>
    have hpre : [a] <+: a :: rest := ⟨rest, rfl⟩
    rw [List.nil_append, pieces_of_found (List.cons_ne_nil _ _) hpre]
    rfl
  | cons b t ih =>
    rw [List.cons_append, pieces_of_kept (not_prefix_of_ne (List.ne_of_not_mem_cons h)),
      ih (List.not_mem_of_not_mem_cons h)]
    rfl

theorem pieces_singleton_of_notMem {a : α} (h : a ∉ t) : pieces [a] 0 t = [t] := by
  induction t with
  | nil => rfl
  | cons b t ih =>
    rw [pieces_of_kept (not_prefix_of_ne (List.ne_of_not_mem_cons h)),
      ih (List.not_mem_of_not_mem_cons h)]
    rfl

/-- A text is its first piece, or its first piece, `w` and the rest. -/
theorem pieces_induction {P : List α → Prop} (hw : w ≠ []) (hnil : P [])
    (hfound : ∀ t, w <+: t → P (t.drop w.length) → P t)
    (hkept : ∀ a t, ¬ w <+: a :: t → P t → P (a :: t)) (t : List α) : P t := by
  induction h : t.length using Nat.strong_induction_on generalizing t with
  | _ n ih =>
    by_cases hp : w <+: t
    · have hpos := List.length_pos_iff.mpr hw
      have hle := hp.length_le
      refine hfound t hp (ih _ ?_ _ rfl)
      rw [List.length_drop]
      omega
    · cases t with
      | nil => exact hnil
      | cons a t =>
        refine hkept a t hp (ih _ ?_ t rfl)
        simp only [List.length_cons] at h
        omega

/-- The text starts with its first piece, and `w` is not found inside it. -/
theorem head_pieces (hw : w ≠ []) : pieces w 0 t = x :: xs → x <+: t ∧ ¬ w <:+: x := by
  refine pieces_induction (P := fun t => ∀ x xs, pieces w 0 t = x :: xs → x <+: t ∧ ¬ w <:+: x)
    hw ?_ ?_ ?_ t x xs
  · intro x xs h
    obtain ⟨rfl, -⟩ := List.cons.inj h
    exact ⟨List.prefix_rfl, fun h => hw (List.infix_nil.mp h)⟩
  · intro t hp _ x xs h
    rw [pieces_of_found hw hp] at h
    obtain ⟨rfl, -⟩ := List.cons.inj h
    exact ⟨List.nil_prefix, fun h => hw (List.infix_nil.mp h)⟩
  · intro a t hp ih x xs h
    obtain ⟨y, ys, hy⟩ := exists_pieces w t
    rw [pieces_of_kept hp, hy] at h
    obtain ⟨rfl, -⟩ := List.cons.inj h
    obtain ⟨hpre, hnot⟩ := ih y ys hy
    have hcons : a :: y <+: a :: t := List.cons_prefix_cons.mpr ⟨rfl, hpre⟩
    refine ⟨hcons, fun hin => ?_⟩
    rcases List.infix_cons_iff.mp hin with hin | hin
    · exact hp (hin.trans hcons)
    · exact hnot hin

/-- Every piece is a stretch of the text without an occurrence of `w`. -/
theorem mem_pieces (hw : w ≠ []) : x ∈ pieces w 0 t → x <:+: t ∧ ¬ w <:+: x := by
  refine pieces_induction (P := fun t => ∀ x ∈ pieces w 0 t, x <:+: t ∧ ¬ w <:+: x)
    hw ?_ ?_ ?_ t x
  · intro x hx
    obtain rfl := List.mem_singleton.mp hx
    exact ⟨List.infix_rfl, fun h => hw (List.infix_nil.mp h)⟩
  · intro t hp ih x hx
    rw [pieces_of_found hw hp] at hx
    rcases List.mem_cons.mp hx with rfl | hx
    · exact ⟨List.nil_infix, fun h => hw (List.infix_nil.mp h)⟩
    · obtain ⟨hin, hnot⟩ := ih x hx
      exact ⟨hin.trans (List.drop_suffix _ _).isInfix, hnot⟩
  · intro a t hp ih x hx
    obtain ⟨y, ys, hy⟩ := exists_pieces w t
    have heq : pieces w 0 (a :: t) = (a :: y) :: ys := by
      rw [pieces_of_kept hp, hy]
      rfl
    rw [heq] at hx
    rcases List.mem_cons.mp hx with rfl | hx
    · obtain ⟨hpre, hnot⟩ := head_pieces hw heq
      exact ⟨hpre.isInfix, hnot⟩
    · obtain ⟨hin, hnot⟩ := ih x (by rw [hy]; exact List.mem_cons_of_mem _ hx)
      exact ⟨List.infix_cons hin, hnot⟩

end Pieces

section Rules

variable {w p t : List α}

/-- An occurrence of `w` at the beginning is replaced. -/
theorem replace_of_found (hw : w ≠ []) (h : w <+: t) :
    replace w p t = p ++ replace w p (t.drop w.length) := by
  obtain ⟨x, xs, hx⟩ := exists_pieces w (t.drop w.length)
  rw [replace, pieces_of_found hw h, intercalate_cons_of_ne (by simp [hx])]
  rfl

/-- An element at which no occurrence starts is kept. -/
theorem replace_of_kept {a : α} (h : ¬ w <+: a :: t) :
    replace w p (a :: t) = a :: replace w p t := by
  obtain ⟨x, xs, hx⟩ := exists_pieces w t
  rw [replace, replace, pieces_of_kept h, hx]
  cases xs with
  | nil => simp [consHead, List.intercalate]
  | cons y ys =>
    have hne : y :: ys ≠ [] := by simp
    rw [consHead, intercalate_cons_of_ne hne, intercalate_cons_of_ne hne]
    rfl

theorem replace_nil : replace w p [] = [] := by
  rw [replace, pieces]
  rfl

end Rules

/-! ## Words apart from the replacement -/

section Gone

variable {p v w t : List α}

/-- A replacement makes no new occurrence of such a word. -/
theorem Apart.not_infix_replace (h : Apart p v) (hv : v ≠ []) (hw : w ≠ []) (ht : ¬ v <:+: t) :
    ¬ v <:+: replace w p t := by
  intro hin
  obtain ⟨x, hx, hvx⟩ := h.of_intercalate hv hin
  exact ht (hvx.trans (mem_pieces hw hx).1)

/-- Such a word is gone once it has been replaced. -/
theorem Apart.not_infix_replace_self (h : Apart p w) (hw : w ≠ []) : ¬ w <:+: replace w p t := by
  intro hin
  obtain ⟨x, hx, hwx⟩ := h.of_intercalate hw hin
  exact (mem_pieces hw hx).2 hwx

end Gone

end Replace
