import Perchstation.Lib.Resumption

/-!
# Spec — a program logic for programs of requests

`Spec env stop post p s`: started in `s`, the program `p` is stopped in states of `stop` only, and a
complete run ends as `post` says.  One rule for each way to build a program; `embed` runs a program
among those that know more requests.
-/

namespace Resumption

variable {Req : Type} {Rep : Req → Type} {α β σ : Type}

/-- Wherever `p` is stopped, `stop` holds; at its end, `post` does. -/
def Spec (env : Env Req Rep σ) (stop : σ → Prop) (post : α → σ → Prop) : Prog Req Rep α → σ → Prop
  | .pure a, s => stop s ∧ post a s
  | .ask r k, s => stop s ∧ ∀ v t, env s r v t → Spec env stop post (k v) t

section Rules

variable {env : Env Req Rep σ} {stop : σ → Prop} {post post' : α → σ → Prop} {p : Prog Req Rep α}
  {s t : σ}

theorem spec_pure {a : α} (hs : stop s) (h : post a s) :
    Spec env stop post (pure a : Prog Req Rep α) s := ⟨hs, h⟩

/-- A request and what follows it. -/
theorem spec_request {r : Req} {f : Rep r → Prog Req Rep α} (hs : stop s)
    (h : ∀ v t, env s r v t → Spec env stop post (f v) t) :
    Spec env stop post (Prog.request r >>= f) s := ⟨hs, h⟩

/-- One program after another. -/
theorem Spec.bind {mid : β → σ → Prop} {q : Prog Req Rep β} {f : β → Prog Req Rep α}
    (hq : Spec env stop mid q s) (hf : ∀ b t, stop t → mid b t → Spec env stop post (f b) t) :
    Spec env stop post (q >>= f) s := by
  show Spec env stop post (q.bind f) s
  induction q generalizing s with
  | pure b => exact hf b s hq.1 hq.2
  | ask r k ih => exact ⟨hq.1, fun v t hv => ih v (hq.2 v t hv)⟩

theorem Spec.mono {stop' : σ → Prop} (h : Spec env stop post p s) (hstop : ∀ t, stop t → stop' t)
    (hpost : ∀ a t, post a t → post' a t) : Spec env stop' post' p s := by
  induction p generalizing s with
  | pure a => exact ⟨hstop _ h.1, hpost a _ h.2⟩
  | ask r k ih => exact ⟨hstop _ h.1, fun v t hv => ih v (h.2 v t hv)⟩

theorem Spec.reaches (h : Spec env stop post p s) (hr : Reaches env p s t) : stop t := by
  induction p generalizing s with
  | pure a =>
    obtain rfl := hr
    exact h.1
  | ask r k ih =>
    rcases hr with rfl | ⟨v, u, hv, hr⟩
    · exact h.1
    · exact ih v (h.2 v u hv) hr

theorem Spec.runs {a : α} (h : Spec env stop post p s) (hr : Runs env p s a t) : post a t := by
  induction p generalizing s with
  | pure b =>
    obtain ⟨rfl, rfl⟩ := hr
    exact h.2
  | ask r k ih =>
    obtain ⟨v, u, hv, hr⟩ := hr
    exact ih v (h.2 v u hv) hr

/-- Both of two specifications hold. -/
theorem Spec.and {stop' : σ → Prop} (h : Spec env stop post p s) (h' : Spec env stop' post' p s) :
    Spec env (fun t => stop t ∧ stop' t) (fun a t => post a t ∧ post' a t) p s := by
  induction p generalizing s with
  | pure a => exact ⟨⟨h.1, h'.1⟩, h.2, h'.2⟩
  | ask r k ih => exact ⟨⟨h.1, h'.1⟩, fun v t hv => ih v (h.2 v t hv) (h'.2 v t hv)⟩

/-- The end of a run is a stop. -/
theorem Spec.stopped (h : Spec env stop post p s) :
    Spec env stop (fun a t => stop t ∧ post a t) p s := by
  induction p generalizing s with
  | pure a => exact ⟨h.1, h⟩
  | ask r k ih => exact ⟨h.1, fun v t hv => ih v (h.2 v t hv)⟩

/-- A program of requests that keep `I`. -/
theorem Within.spec {P : Req → Prop} {I : σ → Prop} (hp : Within P p) (hs : I s)
    (henv : ∀ s r v t, P r → env s r v t → I s → I t) : Spec env I (fun _ => I) p s := by
  induction p generalizing s with
  | pure a => exact ⟨hs, hs⟩
  | ask r k ih => exact ⟨hs, fun v t hv => ih v (hp.2 v) (henv s r v t hp.1 hv hs)⟩

end Rules

/-! ## What a program can return -/

section Yields

/-- Whatever is answered, the result meets `Q`. -/
def Yields (Q : α → Prop) : Prog Req Rep α → Prop
  | .pure a => Q a
  | .ask _ k => ∀ v, Yields Q (k v)

variable {Q : α → Prop} {Q' : β → Prop} {p : Prog Req Rep α} {f : α → Prog Req Rep β}

theorem yields_pure {a : α} (h : Q a) : Yields Q (pure a : Prog Req Rep α) := h

theorem Yields.bind (hp : Yields Q p) (hf : ∀ a, Q a → Yields Q' (f a)) : Yields Q' (p >>= f) := by
  show Yields Q' (p.bind f)
  induction p with
  | pure a => exact hf a hp
  | ask r k ih => exact fun v => ih v (hp v)

theorem yields_bind (hf : ∀ a, Yields Q' (f a)) : Yields Q' (p >>= f) := by
  show Yields Q' (p.bind f)
  induction p with
  | pure a => exact hf a
  | ask r k ih => exact fun v => ih v

theorem Yields.runs {env : Env Req Rep σ} {s t : σ} {a : α} (h : Yields Q p) (hr : Runs env p s a t) :
    Q a := by
  induction p generalizing s with
  | pure b =>
    obtain ⟨rfl, rfl⟩ := hr
    exact h
  | ask r k ih =>
    obtain ⟨v, u, -, hr⟩ := hr
    exact ih v (h v) hr

end Yields

/-! ## Programs among programs with more requests -/

section Embed

variable {Req' : Type} {Rep' : Req' → Type}

/-- `p` with its requests asked as requests of a larger set. -/
def embed (f : Req → Req') (rep : ∀ r, Rep' (f r) → Rep r) : Prog Req Rep α → Prog Req' Rep' α
  | .pure a => .pure a
  | .ask r k => .ask (f r) fun v => embed f rep (k (rep r v))

variable {f : Req → Req'} {rep : ∀ r, Rep' (f r) → Rep r} {env : Env Req' Rep' σ} {stop : σ → Prop}
  {post : α → σ → Prop} {s : σ}

/-- An embedded program meets what the program meets in the embedded environment. -/
theorem spec_embed {p : Prog Req Rep α}
    (h : Spec (fun s r v t => ∃ v', rep r v' = v ∧ env s (f r) v' t) stop post p s) :
    Spec env stop post (embed f rep p) s := by
  induction p generalizing s with
  | pure a => exact h
  | ask r k ih => exact ⟨h.1, fun v t hv => ih _ (h.2 _ t ⟨v, rfl, hv⟩)⟩

end Embed

end Resumption
