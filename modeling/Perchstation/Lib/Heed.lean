import Perchstation.Lib.Interleaving

/-!
# Heed — requests and the states they are made in

`Heeds env guard p s`: in every run of `p` from `s`, each request is made in a state in which `guard`
allows it.  What holds where requests are made holds where other programs are called (`Calls`), and a
program that heeds the agreement of two environments runs alike in both.
-/

namespace Resumption

open Interleaving

variable {Req : Type} {Rep : Req → Type} {α β σ : Type}

/-- Every request that `p`, run from `s`, comes to make is allowed by `guard` in the state of then. -/
def Heeds (env : Env Req Rep σ) (guard : Req → σ → Prop) : Prog Req Rep α → σ → Prop
  | .pure _, _ => True
  | .ask r k, s => guard r s ∧ ∀ v t, env s r v t → Heeds env guard (k v) t

variable {env env' : Env Req Rep σ} {guard : Req → σ → Prop} {p : Prog Req Rep α} {s t : σ}

theorem heeds_pure (a : α) (s : σ) : Heeds env guard (pure a : Prog Req Rep α) s := trivial

theorem heeds_request {r : Req} {f : Rep r → Prog Req Rep α} (hr : guard r s)
    (hf : ∀ v t, env s r v t → Heeds env guard (f v) t) :
    Heeds env guard (Prog.request r >>= f) s := ⟨hr, hf⟩

/-- One program after another. -/
theorem Heeds.bind {f : α → Prog Req Rep β} (hp : Heeds env guard p s)
    (hf : ∀ a t, Runs env p s a t → Heeds env guard (f a) t) : Heeds env guard (p >>= f) s := by
  show Heeds env guard (p.bind f) s
  induction p generalizing s with
  | pure a => exact hf a s ⟨rfl, rfl⟩
  | ask r k ih =>
    exact ⟨hp.1, fun v t hv => ih v (hp.2 v t hv) fun a u h => hf a u ⟨v, t, hv, h⟩⟩

theorem Heeds.mono {guard' : Req → σ → Prop} (h : Heeds env guard p s)
    (hguard : ∀ r s, guard r s → guard' r s) : Heeds env guard' p s := by
  induction p generalizing s with
  | pure a => trivial
  | ask r k ih => exact ⟨hguard r s h.1, fun v t hv => ih v (h.2 v t hv)⟩

/-- Requests that are allowed in every state. -/
theorem Within.heeds {P : Req → Prop} (hp : Within P p) (hguard : ∀ r s, P r → guard r s) (s : σ) :
    Heeds env guard p s := by
  induction p generalizing s with
  | pure a => trivial
  | ask r k ih => exact ⟨hguard r s hp.1, fun v t _ => ih v (hp.2 v) t⟩

/-- Fewer answers, fewer runs. -/
theorem Heeds.of_env (h : Heeds env guard p s) (henv : ∀ s r v t, env' s r v t → env s r v t) :
    Heeds env' guard p s := by
  induction p generalizing s with
  | pure a => trivial
  | ask r k ih => exact ⟨h.1, fun v t hv => ih v (h.2 v t (henv s r v t hv))⟩

/-- What is left of a program heeds what the program does. -/
theorem Heeds.rest {q : Prog Req Rep α} (h : Heeds env guard p s) (hq : RunsTo env p s q t) :
    Heeds env guard q t := by
  induction hq with
  | refl p s => exact h
  | ask hv _ ih => exact ih (h.2 _ _ hv)

/-! ## Calls -/

/-- `p`, run from `s`, comes to a call of `q` in the state `t`. -/
def Calls (env : Env Req Rep σ) (q : Prog Req Rep β) (p : Prog Req Rep α) (s t : σ) : Prop :=
  ∃ k : β → Prog Req Rep α, RunsTo env p s (q >>= k) t

section Calls

variable {γ : Type} {q : Prog Req Rep γ} {f : α → Prog Req Rep β}

theorem calls_self (q : Prog Req Rep γ) (k : γ → Prog Req Rep α) (s : σ) :
    Calls env q (q >>= k) s s := ⟨k, .refl _ s⟩

theorem Calls.mono (h : Calls env q p s t) (henv : ∀ s r v t, env s r v t → env' s r v t) :
    Calls env' q p s t := by
  obtain ⟨k, hk⟩ := h
  exact ⟨k, hk.mono henv⟩

/-- A call made by the first of two programs. -/
theorem Calls.bind (h : Calls env q p s t) : Calls env q (p >>= f) s t := by
  obtain ⟨k, hk⟩ := h
  refine ⟨fun c => k c >>= f, ?_⟩
  rw [← bind_assoc]
  exact hk.bind f

/-- A call made by the second of two programs. -/
theorem calls_bind {a : α} {u : σ} (hp : Runs env p s a u) (h : Calls env q (f a) u t) :
    Calls env q (p >>= f) s t := by
  obtain ⟨k, hk⟩ := h
  exact ⟨k, ((runsTo_pure hp).bind f).trans hk⟩

end Calls

/-! ## Two environments -/

/-- The environments agree where the program asks. -/
theorem Heeds.runs_iff {a : α}
    (h : Heeds env (fun r s => ∀ v t, env' s r v t ↔ env s r v t) p s) :
    Runs env' p s a t ↔ Runs env p s a t := by
  induction p generalizing s with
  | pure b => exact Iff.rfl
  | ask r k ih =>
    constructor
    · rintro ⟨v, u, hv, hrun⟩
      have hv' := (h.1 v u).mp hv
      exact ⟨v, u, hv', (ih v (h.2 v u hv')).mp hrun⟩
    · rintro ⟨v, u, hv, hrun⟩
      exact ⟨v, u, (h.1 v u).mpr hv, (ih v (h.2 v u hv)).mpr hrun⟩

end Resumption
