import Mathlib.Logic.Relation
import Mathlib.Logic.Basic

/-!
# Resumption — programs as trees of requests

A program asks its environment one request at a time and goes on with the reply.  `Env` says which
replies an environment may give and what becomes of its state.  Three readings of a program follow:

* `Runs p s a t`: the program runs from `s` to its end, returns `a` and leaves `t`.
* `Reaches p s t`: the program, stopped between two requests (or before the first, or after the
  last), leaves `t`.  A process stop is a state of `Reaches`.
* `RunsOnce env bad p s a t`: a complete run in which exactly one request is answered by `bad`.

Each reading has one rule for `bind`; proofs about programs use these rules and the rules of the
single requests, never the trees themselves.
-/

namespace Resumption

/-- A program over the requests `Req`; the reply to `r` is a value of `Rep r`. -/
inductive Prog (Req : Type) (Rep : Req → Type) (α : Type) : Type
  | pure (a : α) : Prog Req Rep α
  | ask (r : Req) (k : Rep r → Prog Req Rep α) : Prog Req Rep α

variable {Req : Type} {Rep : Req → Type} {α β σ : Type}

namespace Prog

def bind : Prog Req Rep α → (α → Prog Req Rep β) → Prog Req Rep β
  | .pure a, f => f a
  | .ask r k, f => .ask r fun v => (k v).bind f

instance : Monad (Prog Req Rep) where
  pure := Prog.pure
  bind := Prog.bind

/-- The program of a single request. -/
def request (r : Req) : Prog Req Rep (Rep r) := .ask r .pure

end Prog

theorem bind_assoc {δ : Type} (p : Prog Req Rep α) (f : α → Prog Req Rep β)
    (g : β → Prog Req Rep δ) : p >>= f >>= g = p >>= fun a => f a >>= g := by
  show (p.bind f).bind g = p.bind fun a => (f a).bind g
  induction p with
  | pure a => rfl
  | ask r k ih => exact congrArg (Prog.ask r) (funext ih)

/-- The replies an environment may give in a state, and the state after each. -/
abbrev Env (Req : Type) (Rep : Req → Type) (σ : Type) : Type :=
  σ → (r : Req) → Rep r → σ → Prop

/-- `p` run from `s` to its end returns `a` and leaves `t`. -/
def Runs (env : Env Req Rep σ) : Prog Req Rep α → σ → α → σ → Prop
  | .pure b, s, a, t => a = b ∧ t = s
  | .ask r k, s, a, t => ∃ v u, env s r v u ∧ Runs env (k v) u a t

/-- `p` started in `s` may be stopped in `t`. -/
def Reaches (env : Env Req Rep σ) : Prog Req Rep α → σ → σ → Prop
  | .pure _, s, t => t = s
  | .ask r k, s, t => t = s ∨ ∃ v u, env s r v u ∧ Reaches env (k v) u t

/-- A complete run of `p` in which exactly one request is answered by `bad`. -/
def RunsOnce (env bad : Env Req Rep σ) : Prog Req Rep α → σ → α → σ → Prop
  | .pure _, _, _, _ => False
  | .ask r k, s, a, t => (∃ v u, bad s r v u ∧ Runs env (k v) u a t) ∨
      ∃ v u, env s r v u ∧ RunsOnce env bad (k v) u a t

section Rules

variable {env bad : Env Req Rep σ}

@[simp] theorem runs_pure {s t : σ} {a b : α} :
    Runs env (pure b : Prog Req Rep α) s a t ↔ a = b ∧ t = s := Iff.rfl

@[simp] theorem runs_request {s t : σ} {r : Req} {v : Rep r} :
    Runs env (Prog.request r) s v t ↔ env s r v t := by
  constructor
  · rintro ⟨v', u, h, rfl, rfl⟩
    exact h
  · exact fun h => ⟨v, t, h, rfl, rfl⟩

/-- A run of `p >>= f` is a run of `p` followed by a run of `f`. -/
theorem runs_bind (p : Prog Req Rep α) (f : α → Prog Req Rep β) (s t : σ) (b : β) :
    Runs env (p >>= f) s b t ↔ ∃ a u, Runs env p s a u ∧ Runs env (f a) u b t := by
  show Runs env (p.bind f) s b t ↔ _
  induction p generalizing s with
  | pure a =>
    constructor
    · exact fun h => ⟨a, s, ⟨rfl, rfl⟩, h⟩
    · rintro ⟨a', u, ⟨rfl, rfl⟩, h⟩
      exact h
  | ask r k ih =>
    constructor
    · rintro ⟨v, u, hv, h⟩
      obtain ⟨a, w, h1, h2⟩ := (ih v u).mp h
      exact ⟨a, w, ⟨v, u, hv, h1⟩, h2⟩
    · rintro ⟨a, w, ⟨v, u, hv, h1⟩, h2⟩
      exact ⟨v, u, hv, (ih v u).mpr ⟨a, w, h1, h2⟩⟩

/-- A program that only looks up `a` goes on with `a`. -/
theorem runs_bind_of_look {p : Prog Req Rep α} {f : α → Prog Req Rep β} {s t : σ} {a : α} {b : β}
    (h : ∀ v u, Runs env p s v u ↔ v = a ∧ u = s) :
    Runs env (p >>= f) s b t ↔ Runs env (f a) s b t := by
  rw [runs_bind]
  constructor
  · rintro ⟨v, u, hv, hf⟩
    obtain ⟨rfl, rfl⟩ := (h v u).mp hv
    exact hf
  · exact fun hf => ⟨a, s, (h a s).mpr ⟨rfl, rfl⟩, hf⟩

@[simp] theorem reaches_pure {s t : σ} {b : α} :
    Reaches env (pure b : Prog Req Rep α) s t ↔ t = s := Iff.rfl

@[simp] theorem reaches_request {s t : σ} {r : Req} :
    Reaches env (Prog.request r : Prog Req Rep (Rep r)) s t ↔ t = s ∨ ∃ v, env s r v t := by
  constructor
  · rintro (h | ⟨v, u, h, rfl⟩)
    · exact Or.inl h
    · exact Or.inr ⟨v, h⟩
  · rintro (h | ⟨v, h⟩)
    · exact Or.inl h
    · exact Or.inr ⟨v, t, h, rfl⟩

theorem reaches_self (p : Prog Req Rep α) (s : σ) : Reaches env p s s := by
  cases p with
  | pure a => rfl
  | ask r k => exact Or.inl rfl

/-- A stop of `p >>= f` is a stop of `p`, or a stop of `f` after a complete run of `p`. -/
theorem reaches_bind (p : Prog Req Rep α) (f : α → Prog Req Rep β) (s t : σ) :
    Reaches env (p >>= f) s t ↔
      Reaches env p s t ∨ ∃ a u, Runs env p s a u ∧ Reaches env (f a) u t := by
  show Reaches env (p.bind f) s t ↔ _
  induction p generalizing s with
  | pure a =>
    constructor
    · exact fun h => Or.inr ⟨a, s, ⟨rfl, rfl⟩, h⟩
    · rintro (rfl | ⟨a', u, ⟨rfl, rfl⟩, h⟩)
      · exact reaches_self _ _
      · exact h
  | ask r k ih =>
    constructor
    · rintro (rfl | ⟨v, u, hv, h⟩)
      · exact Or.inl (Or.inl rfl)
      · rcases (ih v u).mp h with h | ⟨a, w, h1, h2⟩
        · exact Or.inl (Or.inr ⟨v, u, hv, h⟩)
        · exact Or.inr ⟨a, w, ⟨v, u, hv, h1⟩, h2⟩
    · rintro ((rfl | ⟨v, u, hv, h⟩) | ⟨a, w, ⟨v, u, hv, h1⟩, h2⟩)
      · exact Or.inl rfl
      · exact Or.inr ⟨v, u, hv, (ih v u).mpr (Or.inl h)⟩
      · exact Or.inr ⟨v, u, hv, (ih v u).mpr (Or.inr ⟨a, w, h1, h2⟩)⟩

/-- The end of a complete run is a state in which the program may be stopped. -/
theorem Runs.reaches {p : Prog Req Rep α} {s t : σ} {a : α} (h : Runs env p s a t) :
    Reaches env p s t := by
  induction p generalizing s with
  | pure b => exact h.2
  | ask r k ih =>
    obtain ⟨v, u, hv, h⟩ := h
    exact Or.inr ⟨v, u, hv, ih v h⟩

/-- A run carries over to an environment that gives at least the same answers on the images of the
states. -/
theorem Runs.map {τ : Type} {env' : Env Req Rep τ} (f : σ → τ)
    (henv : ∀ s r v t, env s r v t → env' (f s) r v (f t)) {p : Prog Req Rep α} {s t : σ} {a : α}
    (h : Runs env p s a t) : Runs env' p (f s) a (f t) := by
  induction p generalizing s with
  | pure b =>
    obtain ⟨rfl, rfl⟩ := h
    exact ⟨rfl, rfl⟩
  | ask r k ih =>
    obtain ⟨v, u, hv, h⟩ := h
    exact ⟨v, f u, henv s r v u hv, ih v h⟩

@[simp] theorem runsOnce_pure {s t : σ} {a b : α} :
    RunsOnce env bad (pure b : Prog Req Rep α) s a t ↔ False := Iff.rfl

@[simp] theorem runsOnce_request {s t : σ} {r : Req} {v : Rep r} :
    RunsOnce env bad (Prog.request r) s v t ↔ bad s r v t := by
  constructor
  · rintro (⟨v', u, h, rfl, rfl⟩ | ⟨v', u, -, h⟩)
    · exact h
    · exact h.elim
  · exact fun h => Or.inl ⟨v, t, h, rfl, rfl⟩

/-- The one bad reply of a run of `p >>= f` falls into `p` or into `f`. -/
theorem runsOnce_bind (p : Prog Req Rep α) (f : α → Prog Req Rep β) (s t : σ) (b : β) :
    RunsOnce env bad (p >>= f) s b t ↔
      (∃ a u, RunsOnce env bad p s a u ∧ Runs env (f a) u b t) ∨
      ∃ a u, Runs env p s a u ∧ RunsOnce env bad (f a) u b t := by
  show RunsOnce env bad (p.bind f) s b t ↔ _
  induction p generalizing s with
  | pure a =>
    constructor
    · exact fun h => Or.inr ⟨a, s, ⟨rfl, rfl⟩, h⟩
    · rintro (⟨a', u, h, -⟩ | ⟨a', u, ⟨rfl, rfl⟩, h⟩)
      · exact h.elim
      · exact h
  | ask r k ih =>
    constructor
    · rintro (⟨v, u, hv, h⟩ | ⟨v, u, hv, h⟩)
      · obtain ⟨a, w, h1, h2⟩ := (runs_bind (k v) f u t b).mp h
        exact Or.inl ⟨a, w, Or.inl ⟨v, u, hv, h1⟩, h2⟩
      · rcases (ih v u).mp h with ⟨a, w, h1, h2⟩ | ⟨a, w, h1, h2⟩
        · exact Or.inl ⟨a, w, Or.inr ⟨v, u, hv, h1⟩, h2⟩
        · exact Or.inr ⟨a, w, ⟨v, u, hv, h1⟩, h2⟩
    · rintro (⟨a, w, ⟨v, u, hv, h1⟩ | ⟨v, u, hv, h1⟩, h2⟩ | ⟨a, w, ⟨v, u, hv, h1⟩, h2⟩)
      · exact Or.inl ⟨v, u, hv, (runs_bind (k v) f u t b).mpr ⟨a, w, h1, h2⟩⟩
      · exact Or.inr ⟨v, u, hv, (ih v u).mpr (Or.inl ⟨a, w, h1, h2⟩)⟩
      · exact Or.inr ⟨v, u, hv, (ih v u).mpr (Or.inr ⟨a, w, h1, h2⟩)⟩

/-- A program that only turns the result of `p` into another stops where `p` does. -/
theorem reaches_bind_pure {p : Prog Req Rep α} {f : α → Prog Req Rep β} {s t : σ}
    (h : Reaches env (p >>= f) s t) (hf : ∀ a, ∃ b, f a = pure b) : Reaches env p s t := by
  rcases (reaches_bind p f s t).mp h with h | ⟨a, u, h1, h2⟩
  · exact h
  · obtain ⟨b, hb⟩ := hf a
    rw [hb] at h2
    obtain rfl := reaches_pure.mp h2
    exact h1.reaches

/-! ### Programs that pass errors on -/

/-- A program that passes an error of `p` on succeeds only if `p` and what follows it do. -/
theorem Runs.bind_ok {ε δ : Type} {p : Prog Req Rep (Except ε α)}
    {f : Except ε α → Prog Req Rep (Except δ β)} {s t : σ} {b : β}
    (h : Runs env (p >>= f) s (.ok b) t) (hf : ∀ e, ∃ e', f (.error e) = pure (.error e')) :
    ∃ a u, Runs env p s (.ok a) u ∧ Runs env (f (.ok a)) u (.ok b) t := by
  obtain ⟨v, u, h1, h2⟩ := (runs_bind p f s t (.ok b)).mp h
  cases v with
  | error e =>
    obtain ⟨e', he⟩ := hf e
    rw [he] at h2
    cases h2.1
  | ok a => exact ⟨a, u, h1, h2⟩

variable {env' : Env Req Rep σ}

/-- A run of `p` in `env` that succeeds has met only replies that `env'` gives too. -/
def Detects {ε : Type} (env env' : Env Req Rep σ) (p : Prog Req Rep (Except ε α)) : Prop :=
  ∀ s a t, Runs env p s (.ok a) t → Runs env' p s (.ok a) t

theorem detects_pure {ε : Type} (v : Except ε α) :
    Detects env env' (pure v : Prog Req Rep (Except ε α)) := fun _ _ _ h => h

theorem Detects.bind {ε δ : Type} {p : Prog Req Rep (Except ε α)}
    {f : Except ε α → Prog Req Rep (Except δ β)} (hp : Detects env env' p)
    (herr : ∀ e, ∃ e', f (.error e) = pure (.error e'))
    (hf : ∀ a, Detects env env' (f (.ok a))) : Detects env env' (p >>= f) := by
  intro s b t h
  obtain ⟨a, u, h1, h2⟩ := h.bind_ok herr
  exact (runs_bind p f s t (.ok b)).mpr ⟨.ok a, u, hp s a u h1, hf a u b t h2⟩

/-! ### Programs that ask only requests of one kind -/

/-- Every request of `p` satisfies `P`, whatever is replied. -/
def Within (P : Req → Prop) : Prog Req Rep α → Prop
  | .pure _ => True
  | .ask r k => P r ∧ ∀ v, Within P (k v)

variable {P : Req → Prop} {I : σ → Prop}

theorem within_pure (a : α) : Within P (pure a : Prog Req Rep α) := trivial

theorem within_request {r : Req} (h : P r) :
    Within P (Prog.request r : Prog Req Rep (Rep r)) := ⟨h, fun _ => trivial⟩

theorem Within.bind {p : Prog Req Rep α} {f : α → Prog Req Rep β} (hp : Within P p)
    (hf : ∀ a, Within P (f a)) : Within P (p >>= f) := by
  show Within P (p.bind f)
  induction p with
  | pure a => exact hf a
  | ask r k ih => exact ⟨hp.1, fun v => ih v (hp.2 v)⟩

theorem Within.mono {Q : Req → Prop} {p : Prog Req Rep α} (h : Within P p)
    (hPQ : ∀ r, P r → Q r) : Within Q p := by
  induction p with
  | pure a => trivial
  | ask r k ih => exact ⟨hPQ r h.1, fun v => ih v (h.2 v)⟩

/-- What the replies to such requests preserve holds wherever the program is stopped. -/
theorem Within.reaches {p : Prog Req Rep α} {s t : σ} (hp : Within P p)
    (henv : ∀ s r v t, P r → env s r v t → I s → I t) (h : Reaches env p s t) (hs : I s) : I t := by
  induction p generalizing s with
  | pure a =>
    obtain rfl := h
    exact hs
  | ask r k ih =>
    rcases h with rfl | ⟨v, u, hv, h⟩
    · exact hs
    · exact ih v (hp.2 v) h (henv s r v u hp.1 hv hs)

theorem Within.runs {p : Prog Req Rep α} {s t : σ} {a : α} (hp : Within P p)
    (henv : ∀ s r v t, P r → env s r v t → I s → I t) (h : Runs env p s a t) (hs : I s) : I t :=
  hp.reaches henv h.reaches hs

/-- A program all of whose requests are answered runs to its end. -/
theorem Within.exists_runs {p : Prog Req Rep α} {s : σ} (hp : Within P p)
    (htotal : ∀ s r, I s → P r → ∃ v u, env s r v u ∧ I u) (hs : I s) :
    ∃ a t, Runs env p s a t ∧ I t := by
  induction p generalizing s with
  | pure a => exact ⟨a, s, ⟨rfl, rfl⟩, hs⟩
  | ask r k ih =>
    obtain ⟨v, u, hv, hu⟩ := htotal s r hs hp.1
    obtain ⟨a, t, h, ht⟩ := ih v (hp.2 v) hu
    exact ⟨a, t, ⟨v, u, hv, h⟩, ht⟩

/-! ### Programs that preserve an invariant -/

/-- Wherever `p` is stopped, and whatever is replied, the invariant still holds. -/
def Preserves (env : Env Req Rep σ) (I : σ → Prop) (p : Prog Req Rep α) : Prop :=
  ∀ s t, I s → Reaches env p s t → I t

theorem preserves_pure (a : α) : Preserves env I (pure a : Prog Req Rep α) := by
  rintro s t hs rfl
  exact hs

theorem Preserves.bind {p : Prog Req Rep α} {f : α → Prog Req Rep β} (hp : Preserves env I p)
    (hf : ∀ a, Preserves env I (f a)) : Preserves env I (p >>= f) := by
  intro s t hs h
  rcases (reaches_bind p f s t).mp h with h | ⟨a, u, h1, h2⟩
  · exact hp s t hs h
  · exact hf a u t (hp s u hs h1.reaches) h2

theorem Within.preserves {p : Prog Req Rep α} (hp : Within P p)
    (henv : ∀ s r v t, P r → env s r v t → I s → I t) : Preserves env I p :=
  fun _ _ hs h => hp.reaches henv h hs

/-! ### At most one bad reply -/

/-- A complete run of `p` in which at most one request is answered by `bad`. -/
def RunsAtMostOnce (env bad : Env Req Rep σ) (p : Prog Req Rep α) (s : σ) (a : α) (t : σ) : Prop :=
  Runs env p s a t ∨ RunsOnce env bad p s a t

theorem runsAtMostOnce_request {s t : σ} {r : Req} {v : Rep r} :
    RunsAtMostOnce env bad (Prog.request r) s v t ↔ env s r v t ∨ bad s r v t :=
  or_congr runs_request runsOnce_request

theorem runsAtMostOnce_bind (p : Prog Req Rep α) (f : α → Prog Req Rep β) (s t : σ) (b : β) :
    RunsAtMostOnce env bad (p >>= f) s b t ↔
      (∃ a u, RunsAtMostOnce env bad p s a u ∧ Runs env (f a) u b t) ∨
      ∃ a u, Runs env p s a u ∧ RunsOnce env bad (f a) u b t := by
  unfold RunsAtMostOnce
  rw [runs_bind, runsOnce_bind]
  constructor
  · rintro (⟨a, u, h1, h2⟩ | ⟨a, u, h1, h2⟩ | ⟨a, u, h1, h2⟩)
    · exact Or.inl ⟨a, u, Or.inl h1, h2⟩
    · exact Or.inl ⟨a, u, Or.inr h1, h2⟩
    · exact Or.inr ⟨a, u, h1, h2⟩
  · rintro (⟨a, u, h1 | h1, h2⟩ | ⟨a, u, h1, h2⟩)
    · exact Or.inl ⟨a, u, h1, h2⟩
    · exact Or.inr (Or.inl ⟨a, u, h1, h2⟩)
    · exact Or.inr (Or.inr ⟨a, u, h1, h2⟩)

/-- Such a run is one in the environment that gives both kinds of replies. -/
theorem RunsAtMostOnce.either {p : Prog Req Rep α} {s t : σ} {a : α}
    (h : RunsAtMostOnce env bad p s a t) :
    Runs (fun s r v t => env s r v t ∨ bad s r v t) p s a t := by
  have hgood : ∀ {p : Prog Req Rep α} {s : σ}, Runs env p s a t →
      Runs (fun s r v t => env s r v t ∨ bad s r v t) p s a t :=
    fun h => h.map id fun _ _ _ _ hr => Or.inl hr
  rcases h with h | h
  · exact hgood h
  · induction p generalizing s with
    | pure b => exact h.elim
    | ask r k ih =>
      rcases h with ⟨v, u, hv, h⟩ | ⟨v, u, hv, h⟩
      · exact ⟨v, u, Or.inr hv, hgood h⟩
      · exact ⟨v, u, Or.inl hv, ih v h⟩

end Rules

end Resumption
