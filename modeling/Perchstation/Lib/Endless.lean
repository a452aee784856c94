import Perchstation.Lib.Execution
import Mathlib.Order.OrderIsoNat

/-!
# Endless — infinite runs of a labelled transition system

`Endless step st ev`: the steps labelled `ev 0, ev 1, …` lead through the states `st 0, st 1, …`.
Safety goes along such a run as along a finite one.  What has to happen at some time is proved with
`exists_stable`: a rank that does not grow stays the same in the end, and so it is enough to show that
it cannot.
-/

variable {σ ε : Type} {step : σ → ε → σ → Prop} {st : ℕ → σ} {ev : ℕ → ε}

def Endless (step : σ → ε → σ → Prop) (st : ℕ → σ) (ev : ℕ → ε) : Prop :=
  ∀ n, step (st n) (ev n) (st (n + 1))

theorem Endless.invariant {I : σ → Prop} (h : Endless step st ev) (h0 : I (st 0))
    (hstep : ∀ a l b, I a → step a l b → I b) (n : ℕ) : I (st n) := by
  induction n with
  | zero => exact h0
  | succ n ih => exact hstep _ _ _ ih (h n)

/-- A preorder that every step respects relates each state to the later ones. -/
theorem Endless.related {r : σ → σ → Prop} (h : Endless step st ev) (hrefl : ∀ x, r x x)
    (htrans : ∀ x y z, r x y → r y z → r x z) (hstep : ∀ a l b, step a l b → r a b) {m n : ℕ}
    (hmn : m ≤ n) : r (st m) (st n) := by
  induction n, hmn using Nat.le_induction with
  | base => exact hrefl _
  | succ n _ ih => exact htrans _ _ _ ih (hstep _ _ _ (h n))

/-- What holds at one time and is kept from then on holds at all later times. -/
theorem forall_later {p : ℕ → Prop} {k : ℕ} (hk : p k) (hstep : ∀ n, k ≤ n → p n → p (n + 1))
    {n : ℕ} (hn : k ≤ n) : p n := by
  induction n, hn using Nat.le_induction with
  | base => exact hk
  | succ n hle ih => exact hstep n hle ih

/-- A number that does not grow stays the same in the end. -/
theorem exists_stable {rank : ℕ → ℕ} {k : ℕ} (h : ∀ n, k ≤ n → rank (n + 1) ≤ rank n) :
    ∃ n, k ≤ n ∧ ∀ m, n ≤ m → rank m = rank n := by
  have hanti : Antitone fun i => rank (k + i) :=
    antitone_nat_of_succ_le fun i => h (k + i) (Nat.le_add_right k i)
  obtain ⟨i, hi⟩ := WellFoundedLT.antitone_chain_condition hanti
  refine ⟨k + i, Nat.le_add_right k i, fun m hm => ?_⟩
  obtain ⟨j, rfl⟩ := Nat.exists_eq_add_of_le (Nat.le_of_add_right_le hm)
  exact (hi j (Nat.le_of_add_le_add_left hm)).symm
