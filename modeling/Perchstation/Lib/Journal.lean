import Perchstation.Lib.Resumption

/-!
# Journal — an environment that writes down what it is asked

`journaled keep env` answers as `env` does and adds every request with `keep` to a journal, in order.
What a program asks for becomes part of the state it leaves.
-/

namespace Resumption

variable {Req : Type} {Rep : Req → Type} {α σ : Type}

/-- `env` with a journal of the requests that `keep` picks. -/
def journaled (keep : Req → Bool) (env : Env Req Rep σ) : Env Req Rep (σ × List Req) :=
  fun s r v t => env s.1 r v t.1 ∧ t.2 = s.2 ++ [r].filter keep

variable {keep : Req → Bool} {env : Env Req Rep σ} {p : Prog Req Rep α} {s t : σ} {a : α}
  {log log' new : List Req}

theorem runs_of_journaled {s t : σ × List Req} (h : Runs (journaled keep env) p s a t) :
    Runs env p s.1 a t.1 :=
  Runs.map Prod.fst (fun _ _ _ _ hr => hr.1) h

/-- What a journal held before does not matter. -/
theorem runs_journaled_append :
    Runs (journaled keep env) p (s, log) a (t, log') ↔
      ∃ new, log' = log ++ new ∧ Runs (journaled keep env) p (s, []) a (t, new) := by
  induction p generalizing s log log' with
  | pure b =>
    constructor
    · rintro ⟨rfl, h⟩
      obtain ⟨rfl, rfl⟩ := Prod.mk.inj h
      exact ⟨[], by simp, rfl, rfl⟩
    · rintro ⟨new, rfl, rfl, h⟩
      obtain ⟨rfl, rfl⟩ := Prod.mk.inj h
      exact ⟨rfl, by simp⟩
  | ask r k ih =>
    constructor
    · rintro ⟨v, ⟨u, w⟩, ⟨hv, hw⟩, h⟩
      obtain rfl : w = log ++ [r].filter keep := hw
      obtain ⟨new, hnew, hrest⟩ := (ih v).mp h
      refine ⟨[r].filter keep ++ new, by simp [hnew], v, (u, [r].filter keep), ⟨hv, by simp⟩, ?_⟩
      exact (ih v).mpr ⟨new, rfl, hrest⟩
    · rintro ⟨new, rfl, v, ⟨u, w⟩, ⟨hv, hw⟩, h⟩
      obtain rfl : w = [] ++ [r].filter keep := hw
      obtain ⟨rest, hrest, h'⟩ := (ih v).mp h
      refine ⟨v, (u, log ++ [r].filter keep), ⟨hv, rfl⟩, ?_⟩
      exact (ih v).mpr ⟨rest, by simp [hrest], h'⟩

/-- Every run has a journal. -/
theorem exists_journaled (keep : Req → Bool) (h : Runs env p s a t) :
    ∃ new, Runs (journaled keep env) p (s, []) a (t, new) := by
  induction p generalizing s with
  | pure b =>
    obtain ⟨rfl, rfl⟩ := h
    exact ⟨[], rfl, rfl⟩
  | ask r k ih =>
    obtain ⟨v, u, hv, h⟩ := h
    obtain ⟨new, hn⟩ := ih v h
    refine ⟨[r].filter keep ++ new, v, (u, [r].filter keep), ⟨hv, by simp⟩, ?_⟩
    exact runs_journaled_append.mpr ⟨new, rfl, hn⟩

end Resumption
