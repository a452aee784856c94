import Perchstation.Lib.Resumption

/-!
# Cancellation — programs dropped at an await

Some requests are awaited: while such a request is under way the program can be dropped.  `Dropped`
says what the environment is left in: all that came before the request has happened, and neither it
nor anything after it.
-/

namespace Resumption

variable {Req : Type} {Rep : Req → Type} {α β σ : Type} {env : Env Req Rep σ} {waits : Req → Prop}

def Dropped (waits : Req → Prop) (env : Env Req Rep σ) : Prog Req Rep α → σ → σ → Prop
  | .pure _, _, _ => False
  | .ask r k, s, t => (waits r ∧ t = s) ∨ ∃ v u, env s r v u ∧ Dropped waits env (k v) u t

@[simp] theorem dropped_pure {a : α} {s t : σ} :
    Dropped waits env (pure a : Prog Req Rep α) s t ↔ False := Iff.rfl

@[simp] theorem dropped_request {r : Req} {s t : σ} :
    Dropped waits env (Prog.request r) s t ↔ waits r ∧ t = s := by
  show (_ ∨ ∃ v u, _ ∧ False) ↔ _
  simp

/-- A sequence is dropped in its first part, or in the second after a run of the first. -/
theorem dropped_bind {p : Prog Req Rep α} {f : α → Prog Req Rep β} {s t : σ} :
    Dropped waits env (p >>= f) s t ↔
      Dropped waits env p s t ∨ ∃ a u, Runs env p s a u ∧ Dropped waits env (f a) u t := by
  show Dropped waits env (p.bind f) s t ↔ _
  induction p generalizing s with
  | pure a =>
    constructor
    · intro h
      exact Or.inr ⟨a, s, ⟨rfl, rfl⟩, h⟩
    · rintro (h | ⟨_, _, ⟨rfl, rfl⟩, h⟩)
      · cases h
      · exact h
  | ask r k ih =>
    constructor
    · rintro (h | ⟨v, u, hv, h⟩)
      · exact Or.inl (Or.inl h)
      · rcases (ih v).mp h with h | ⟨a, w, hr, h⟩
        · exact Or.inl (Or.inr ⟨v, u, hv, h⟩)
        · exact Or.inr ⟨a, w, ⟨v, u, hv, hr⟩, h⟩
    · rintro ((h | ⟨v, u, hv, h⟩) | ⟨a, w, ⟨v, u, hv, hr⟩, h⟩)
      · exact Or.inl h
      · exact Or.inr ⟨v, u, hv, (ih v).mpr (Or.inl h)⟩
      · exact Or.inr ⟨v, u, hv, (ih v).mpr (Or.inr ⟨a, w, hr, h⟩)⟩

/-- A program without awaits is not dropped. -/
theorem Within.not_dropped {p : Prog Req Rep α} {s t : σ} (hp : Within (fun r => ¬ waits r) p) :
    ¬ Dropped waits env p s t := by
  induction p generalizing s with
  | pure a => exact id
  | ask r k ih =>
    rintro (⟨hw, -⟩ | ⟨v, u, -, h⟩)
    · exact hp.1 hw
    · exact ih v (hp.2 v) h

end Resumption
