import Mathlib.Data.List.Basic

/-!
# Execution — finite runs of a labelled transition system

`Exec step s tr t`: from `s` the steps of `tr` lead to `t`; the trace `tr` lists each step's label
and the state after it.
-/

/-- A finite run from `s` to `t` with the labels and states of the trace. -/
inductive Exec {σ ε : Type} (step : σ → ε → σ → Prop) (s : σ) : List (ε × σ) → σ → Prop
  | nil : Exec step s [] s
  | snoc {tr : List (ε × σ)} {t u : σ} {l : ε} : Exec step s tr t → step t l u →
      Exec step s (tr ++ [(l, u)]) u

namespace Exec

variable {σ ε : Type} {step : σ → ε → σ → Prop} {s t u : σ} {tr tr' : List (ε × σ)}

/-- What holds at first and is preserved by every step holds at the end. -/
theorem invariant {I : σ → Prop} (h : Exec step s tr t) (h0 : I s)
    (hstep : ∀ t l u, I t → step t l u → I u) : I t := by
  induction h with
  | nil => exact h0
  | snoc _ hs ih => exact hstep _ _ _ ih hs

/-- A preorder that every step respects relates the two ends. -/
theorem related {r : σ → σ → Prop} (h : Exec step s tr t) (hrefl : ∀ x, r x x)
    (htrans : ∀ x y z, r x y → r y z → r x z) (hstep : ∀ t l u, step t l u → r t u) : r s t := by
  induction h with
  | nil => exact hrefl s
  | snoc _ hs ih => exact htrans _ _ _ ih (hstep _ _ _ hs)

theorem mono {step' : σ → ε → σ → Prop} (h : Exec step s tr t)
    (hstep : ∀ a l u, step a l u → step' a l u) : Exec step' s tr t := by
  induction h with
  | nil => exact .nil
  | snoc _ hs ih => exact ih.snoc (hstep _ _ _ hs)

theorem append (h : Exec step s tr t) (h' : Exec step t tr' u) : Exec step s (tr ++ tr') u := by
  induction h' with
  | nil => simpa using h
  | snoc _ hs ih =>
    rw [← List.append_assoc]
    exact ih.snoc hs

/-- A run takes each step of its trace after the steps before it. -/
theorem split {x : ε × σ} (h : Exec step s tr t) (hx : x ∈ tr) :
    ∃ tr₁ tr₂ a, tr = tr₁ ++ x :: tr₂ ∧ Exec step s tr₁ a ∧ step a x.1 x.2 ∧
      Exec step x.2 tr₂ t := by
  induction h with
  | nil => cases hx
  | @snoc tr t u l hrun hs ih =>
    rcases List.mem_append.mp hx with hx | hx
    · obtain ⟨tr₁, tr₂, a, rfl, h1, h2, h3⟩ := ih hx
      exact ⟨tr₁, tr₂ ++ [(l, u)], a, by simp, h1, h2, h3.snoc hs⟩
    · obtain rfl := List.mem_singleton.mp hx
      exact ⟨tr, [], t, rfl, hrun, hs, .nil⟩

/-- A run whose trace is given in parts takes the step between them. -/
theorem cut {x : ε × σ} (h : Exec step s (tr ++ x :: tr') t) :
    ∃ a, Exec step s tr a ∧ step a x.1 x.2 ∧ Exec step x.2 tr' t := by
  generalize htr : tr ++ x :: tr' = tr₀ at h
  induction h generalizing tr' with
  | nil => simp at htr
  | @snoc tr₁ b u l hrun hs ih =>
    rcases List.eq_nil_or_concat tr' with rfl | ⟨rest, y, rfl⟩
    · obtain ⟨rfl, hx⟩ := List.append_inj' htr rfl
      cases hx
      exact ⟨b, hrun, hs, .nil⟩
    · have hparts : (tr ++ x :: rest) ++ [y] = tr₁ ++ [(l, u)] := by
        rw [← htr]
        simp
      obtain ⟨hinit, hlast⟩ := List.append_inj' hparts rfl
      cases hlast
      obtain ⟨a, h1, h2, h3⟩ := ih hinit
      rw [List.concat_eq_append]
      exact ⟨a, h1, h2, h3.snoc hs⟩

/-- The trace of a run determines its end. -/
theorem unique (h : Exec step s tr t) (h' : Exec step s tr u) : t = u := by
  generalize htr : tr = tr' at h'
  cases h with
  | nil =>
    cases h' with
    | nil => rfl
    | snoc _ _ => simp at htr
  | snoc _ _ =>
    cases h' with
    | nil => simp at htr
    | snoc _ _ =>
      obtain ⟨-, hlast⟩ := List.append_inj' htr rfl
      cases hlast
      rfl

/-- The run with the trace `tr` takes the step `l` from `a` to `u`. -/
def Takes (step : σ → ε → σ → Prop) (s : σ) (tr : List (ε × σ)) (a : σ) (l : ε) (u : σ) : Prop :=
  ∃ tr₁ tr₂, tr = tr₁ ++ (l, u) :: tr₂ ∧ Exec step s tr₁ a

theorem takes_last {l : ε} {a : σ} (h : Exec step s tr a) : Takes step s (tr ++ [(l, u)]) a l u :=
  ⟨tr, [], rfl, h⟩

theorem Takes.append {l : ε} {a : σ} (h : Takes step s tr a l u) (tr' : List (ε × σ)) :
    Takes step s (tr ++ tr') a l u := by
  obtain ⟨tr₁, tr₂, rfl, ha⟩ := h
  exact ⟨tr₁, tr₂ ++ tr', by simp, ha⟩

theorem takes_snoc {l m : ε} {a b v : σ} (hb : Exec step s tr b)
    (h : Takes step s (tr ++ [(m, v)]) a l u) :
    Takes step s tr a l u ∨ (a = b ∧ l = m ∧ u = v) := by
  obtain ⟨tr₁, tr₂, htr, ha⟩ := h
  rcases List.eq_nil_or_concat tr₂ with rfl | ⟨rest, y, rfl⟩
  · obtain ⟨h1, h2⟩ := List.append_inj' htr rfl
    subst h1
    cases h2
    exact Or.inr ⟨ha.unique hb, rfl, rfl⟩
  · have hcut : tr ++ [(m, v)] = (tr₁ ++ (l, u) :: rest) ++ [y] := by
      rw [htr]
      simp
    obtain ⟨h1, -⟩ := List.append_inj' hcut rfl
    exact Or.inl ⟨tr₁, rest, h1, ha⟩

/-- A run all of whose steps are good keeps what good steps keep. -/
theorem invariant_of_good {I : σ → Prop} {good : σ → ε → σ → Prop} (h : Exec step s tr t) (h0 : I s)
    (hstep : ∀ a l u, I a → step a l u → good a l u → I u)
    (hgood : ∀ a l u, Takes step s tr a l u → good a l u) : I t := by
  induction h with
  | nil => exact h0
  | snoc hrun hs ih =>
    have ha := ih fun a l u htk => hgood a l u (htk.append _)
    exact hstep _ _ _ ha hs (hgood _ _ _ (takes_last hrun))

/-- If good steps keep an invariant under which a step is good exactly if it meets the claim, then
all steps of a run are good exactly if all meet the claim. -/
theorem forall_good_iff {I : σ → Prop} {good claim : σ → ε → σ → Prop} (h : Exec step s tr t)
    (h0 : I s) (hstep : ∀ a l u, I a → step a l u → good a l u → I u)
    (hiff : ∀ a l u, I a → step a l u → (good a l u ↔ claim a l u)) :
    (∀ a l u, Takes step s tr a l u → good a l u) ↔
      ∀ a l u, Takes step s tr a l u → claim a l u := by
  induction h with
  | nil =>
    constructor
    · rintro - a l u ⟨tr₁, tr₂, htr, -⟩
      simp at htr
    · rintro - a l u ⟨tr₁, tr₂, htr, -⟩
      simp at htr
  | @snoc tr b v m hrun hs ih =>
    have hinit : ∀ {q : σ → ε → σ → Prop},
        (∀ a l u, Takes step s (tr ++ [(m, v)]) a l u → q a l u) →
        ∀ a l u, Takes step s tr a l u → q a l u :=
      fun hq a l u htk => hq a l u (htk.append _)
    constructor
    · intro hgood a l u htk
      have hb : I b := hrun.invariant_of_good h0 hstep (hinit hgood)
      rcases takes_snoc hrun htk with htk | ⟨rfl, rfl, rfl⟩
      · exact ih.mp (hinit hgood) a l u htk
      · exact (hiff _ _ _ hb hs).mp (hgood _ _ _ (takes_last hrun))
    · intro hclaim a l u htk
      have hgood := ih.mpr (hinit hclaim)
      have hb : I b := hrun.invariant_of_good h0 hstep hgood
      rcases takes_snoc hrun htk with htk | ⟨rfl, rfl, rfl⟩
      · exact hgood a l u htk
      · exact (hiff _ _ _ hb hs).mpr (hclaim _ _ _ (takes_last hrun))

/-- What a step leaves exactly if it held before and the step is good holds at the end of a run exactly
if all its steps are good. -/
theorem holds_iff_forall_good {J I : σ → Prop} {good : σ → ε → σ → Prop} (h : Exec step s tr t)
    (hJ : J s) (hJstep : ∀ a l u, J a → step a l u → J u) (hI : I s)
    (hiff : ∀ a l u, J a → step a l u → (I u ↔ I a ∧ good a l u)) :
    I t ↔ ∀ a l u, Takes step s tr a l u → good a l u := by
  induction h with
  | nil =>
    refine ⟨fun _ => ?_, fun _ => hI⟩
    rintro a l u ⟨tr₁, tr₂, htr, -⟩
    simp at htr
  | @snoc tr b v m hrun hs ih =>
    rw [hiff _ _ _ (hrun.invariant hJ hJstep) hs, ih]
    constructor
    · rintro ⟨hall, hlast⟩ a l u htk
      rcases takes_snoc hrun htk with htk | ⟨rfl, rfl, rfl⟩
      · exact hall a l u htk
      · exact hlast
    · intro hall
      exact ⟨fun a l u htk => hall a l u (htk.append _), hall _ _ _ (takes_last hrun)⟩

end Exec
