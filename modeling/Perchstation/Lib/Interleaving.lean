import Mathlib.Logic.Function.Basic
import Mathlib.Logic.Relation
import Perchstation.Lib.Execution
import Perchstation.Lib.Resumption

/-!
# Interleaving — programs that run side by side on one state

A `Pool` holds what is left of the program of each party and the state they share.  In one step of
the pool one request of one party is answered, or a party that is done is given its next program.

The proof rule is rely–guarantee.  `Upholds` is the specification of one party: every step it takes
is one of its `guar`, and its result meets `post`, provided the steps of the others are among its
`rely`.  Specifications whose guarantees are among each other's relies hold side by side
(`Agreed.sound_step`, `Agreed.sound_exec`).

The invariant `inv` holds in every state.  A condition on the steps of a run is one on the answers:
a run whose steps all meet it is a run in the environments that answer so (`exec_restrict_iff`).  What a
party has learnt when it is through with the first part of its program, answers included, can be the
precondition of the rest (`Agreed.sound_bind`).
-/

namespace Interleaving

open Resumption

variable {ι Req σ : Type} {Rep : Req → Type} {R : ι → Type} {α β : Type}

/-- What is left of the program of each party, and the state they share. -/
@[ext] structure Pool (Req : Type) (Rep : Req → Type) (R : ι → Type) (σ : Type) where
  prog : ∀ i, Prog Req Rep (R i)
  state : σ

/-- One step: a request of a party is answered, or a party starts its next program. -/
inductive Move (ι : Type) {Req : Type} (Rep : Req → Type)
  | answer (i : ι) (r : Req) (v : Rep r)
  | launch (i : ι)

/-- A step of the pool; `launch i p s` lets the party `i` start `p` in the state `s`. -/
inductive PoolStep [DecidableEq ι] (env : ι → Env Req Rep σ)
    (launch : ∀ i, Prog Req Rep (R i) → σ → Prop) :
    Pool Req Rep R σ → Move ι Rep → Pool Req Rep R σ → Prop
  | answer {P : ∀ i, Prog Req Rep (R i)} {s u : σ} {i : ι} {r : Req}
      {k : Rep r → Prog Req Rep (R i)} {v : Rep r} (hp : P i = .ask r k) (hv : env i s r v u) :
      PoolStep env launch ⟨P, s⟩ (.answer i r v) ⟨Function.update P i (k v), u⟩
  | launch {P : ∀ i, Prog Req Rep (R i)} {s : σ} {i : ι} {a : R i} {p : Prog Req Rep (R i)}
      (hp : P i = .pure a) (hl : launch i p s) :
      PoolStep env launch ⟨P, s⟩ (.launch i) ⟨Function.update P i p, s⟩

theorem PoolStep.mono [DecidableEq ι] {env env' : ι → Env Req Rep σ}
    {launch : ∀ i, Prog Req Rep (R i) → σ → Prop} {a b : Pool Req Rep R σ} {m : Move ι Rep}
    (h : PoolStep env launch a m b) (henv : ∀ i s r v t, env i s r v t → env' i s r v t) :
    PoolStep env' launch a m b := by
  cases h with
  | answer hp hv => exact .answer hp (henv _ _ _ _ _ hv)
  | launch hp hl => exact .launch hp hl

/-! ## One party -/

section Party

/-- The steps of the others that a party meets between two requests of its own. -/
def Drift (inv : σ → Prop) (rely : σ → σ → Prop) : σ → σ → Prop :=
  Relation.ReflTransGen fun s t => rely s t ∧ inv s ∧ inv t

/-- Among steps of `rely`, every step of the party is one of `guar` and its result meets `post`. -/
def Upholds (env : Env Req Rep σ) (inv : σ → Prop) (rely guar : σ → σ → Prop)
    (post : α → σ → Prop) : Prog Req Rep α → σ → Prop
  | .pure a, s => post a s
  | .ask r k, s => ∀ t, Drift inv rely s t → inv t → ∀ v u, env t r v u →
      guar t u ∧ Upholds env inv rely guar post (k v) u

variable {env : Env Req Rep σ} {inv : σ → Prop} {rely guar : σ → σ → Prop} {post : α → σ → Prop}

/-- What each step of the others preserves, all of them preserve. -/
theorem Drift.preserves {A : σ → Prop} {s t : σ} (h : Drift inv rely s t)
    (hA : ∀ s t, rely s t → inv s → inv t → A s → A t) (hs : A s) : A t := by
  induction h with
  | refl => exact hs
  | tail _ hstep ih =>
    obtain ⟨hr, hi, hi'⟩ := hstep
    exact hA _ _ hr hi hi' ih

theorem upholds_pure {a : α} {s : σ} (h : post a s) :
    Upholds env inv rely guar post (pure a : Prog Req Rep α) s := h

/-- One request, in the states that `A` describes. -/
theorem upholds_request {A : σ → Prop} {r : Req} {f : Rep r → Prog Req Rep α} {s : σ} (hA : A s)
    (hstable : ∀ s t, rely s t → inv s → inv t → A s → A t)
    (hstep : ∀ t v u, A t → inv t → env t r v u →
      guar t u ∧ Upholds env inv rely guar post (f v) u) :
    Upholds env inv rely guar post (Prog.request r >>= f) s :=
  fun t hdrift hi v u hv => hstep t v u (hdrift.preserves hstable hA) hi hv

/-- One program after another. -/
theorem Upholds.bind {mid : β → σ → Prop} {p : Prog Req Rep β} {f : β → Prog Req Rep α} {s : σ}
    (hp : Upholds env inv rely guar mid p s)
    (hf : ∀ b t, mid b t → Upholds env inv rely guar post (f b) t) :
    Upholds env inv rely guar post (p >>= f) s := by
  show Upholds env inv rely guar post (p.bind f) s
  induction p generalizing s with
  | pure b => exact hf b s hp
  | ask r k ih =>
    intro t hdrift hi v u hv
    obtain ⟨hguar, hrest⟩ := hp t hdrift hi v u hv
    exact ⟨hguar, ih v hrest⟩

theorem Upholds.mono {post' : α → σ → Prop} {p : Prog Req Rep α} {s : σ}
    (h : Upholds env inv rely guar post p s) (hpost : ∀ a t, post a t → post' a t) :
    Upholds env inv rely guar post' p s := by
  induction p generalizing s with
  | pure a => exact hpost a s h
  | ask r k ih =>
    intro t hdrift hi v u hv
    obtain ⟨hguar, hrest⟩ := h t hdrift hi v u hv
    exact ⟨hguar, ih v hrest⟩

/-- A specification holds in an environment that has no more answers to the program's requests. -/
theorem Upholds.of_env {env' : Env Req Rep σ} {P : Req → Prop} {p : Prog Req Rep α} {s : σ}
    (h : Upholds env inv rely guar post p s) (hp : Within P p)
    (henv : ∀ s r v t, P r → env' s r v t → env s r v t) :
    Upholds env' inv rely guar post p s := by
  induction p generalizing s with
  | pure a => exact h
  | ask r k ih =>
    intro t hdrift hi v u hv
    obtain ⟨hguar, hrest⟩ := h t hdrift hi v u (henv t r v u hp.1 hv)
    exact ⟨hguar, ih v hrest (hp.2 v)⟩

/-- An environment that gives only some of the answers may let the program guarantee more. -/
theorem Upholds.restrict {guar' : σ → σ → Prop} {ok : Env Req Rep σ} {p : Prog Req Rep α} {s : σ}
    (h : Upholds env inv rely guar post p s)
    (hguar : ∀ s r v t, ok s r v t → guar s t → guar' s t) :
    Upholds (fun s r v t => env s r v t ∧ ok s r v t) inv rely guar' post p s := by
  induction p generalizing s with
  | pure a => exact h
  | ask r k ih =>
    intro t hdrift hi v u hv
    obtain ⟨hg, hrest⟩ := h t hdrift hi v u hv.1
    exact ⟨hguar t r v u hv.2 hg, ih v hrest⟩

/-- What neither the others nor the program's own requests touch can be added to the result. -/
theorem Upholds.frame {F : σ → Prop} {P : Req → Prop} {p : Prog Req Rep α} {s : σ}
    (h : Upholds env inv rely guar post p s) (hp : Within P p) (hs : F s)
    (hrely : ∀ s t, rely s t → inv s → F s → F t)
    (hown : ∀ s r v t, P r → env s r v t → F s → F t) :
    Upholds env inv rely guar (fun a t => post a t ∧ F t) p s := by
  induction p generalizing s with
  | pure a => exact ⟨h, hs⟩
  | ask r k ih =>
    intro t hdrift hi v u hv
    obtain ⟨hguar, hrest⟩ := h t hdrift hi v u hv
    have ht : F t := hdrift.preserves (fun s t hr hi _ => hrely s t hr hi) hs
    exact ⟨hguar, ih v hrest (hp.2 v) (hown t r v u hp.1 hv ht)⟩

/-- A specification outlives a step of the others. -/
theorem Upholds.after {p : Prog Req Rep α} {s t : σ}
    (h : Upholds env inv rely guar post p s)
    (hpost : ∀ a, post a s → post a t)
    (hst : rely s t ∧ inv s ∧ inv t) :
    Upholds env inv rely guar post p t := by
  cases p with
  | pure a => exact hpost a h
  | ask r k => exact fun u hdrift => h u (Relation.ReflTransGen.head hst hdrift)

end Party

/-! ## All parties -/

section Pool

variable {env : ι → Env Req Rep σ} {launch : ∀ i, Prog Req Rep (R i) → σ → Prop}
  {inv : σ → Prop} {rely guar : ι → σ → σ → Prop} {post : ∀ i, R i → σ → Prop}

/-- The invariant and the specification of every party hold of what is left. -/
structure Sound (env : ι → Env Req Rep σ) (inv : σ → Prop) (rely guar : ι → σ → σ → Prop)
    (post : ∀ i, R i → σ → Prop) (a : Pool Req Rep R σ) : Prop where
  invariant : inv a.state
  upholds : ∀ i, Upholds (env i) inv (rely i) (guar i) (post i) (a.prog i) a.state

theorem Sound.result {a : Pool Req Rep R σ} {i : ι} {x : R i}
    (h : Sound env inv rely guar post a) (hx : a.prog i = .pure x) : post i x a.state := by
  have hi := h.upholds i
  rw [hx] at hi
  exact hi

/-- Specifications that hold side by side. -/
structure Agreed (env : ι → Env Req Rep σ) (launch : ∀ i, Prog Req Rep (R i) → σ → Prop)
    (inv : σ → Prop) (rely guar : ι → σ → σ → Prop) (post : ∀ i, R i → σ → Prop) : Prop where
  keeps : ∀ i s t, guar i s t → inv s → inv t
  compatible : ∀ i j s t, i ≠ j → guar j s t → inv s → inv t → rely i s t
  stable : ∀ i a s t, rely i s t → inv s → inv t → post i a s → post i a t
  launched : ∀ i p a s, launch i p s → inv s → post i a s →
    Upholds (env i) inv (rely i) (guar i) (post i) p s

namespace Agreed

/-- A step of one party is one that the others rely on. -/
theorem relied (h : Agreed env launch inv rely guar post) {i j : ι} {s t : σ} (hij : i ≠ j)
    (hguar : guar j s t) (hinv : inv s) : rely i s t ∧ inv s ∧ inv t := by
  have hinv' := h.keeps j s t hguar hinv
  exact ⟨h.compatible i j s t hij hguar hinv hinv', hinv, hinv'⟩

/-- The specification of a party outlives a step of another. -/
theorem outlives (h : Agreed env launch inv rely guar post) {i j : ι} {s t : σ}
    {p : Prog Req Rep (R i)} (hij : i ≠ j) (hguar : guar j s t) (hinv : inv s)
    (hp : Upholds (env i) inv (rely i) (guar i) (post i) p s) :
    Upholds (env i) inv (rely i) (guar i) (post i) p t := by
  have hst := h.relied hij hguar hinv
  exact hp.after (fun x hx => h.stable i x s t hst.1 hinv hst.2.2 hx) hst

variable [DecidableEq ι] {a b : Pool Req Rep R σ} {m : Move ι Rep}

/-- One step keeps all specifications. -/
theorem sound_step (h : Agreed env launch inv rely guar post) (hstep : PoolStep env launch a m b)
    (hs : Sound env inv rely guar post a) : Sound env inv rely guar post b := by
  cases hstep with
  | @answer P s u i r k v hp hv =>
    have hown := hs.upholds i
    simp only [hp] at hown
    obtain ⟨hguar, hrest⟩ := hown s .refl hs.invariant v u hv
    refine ⟨h.keeps i s u hguar hs.invariant, fun j => ?_⟩
    by_cases hj : j = i
    · subst hj
      simpa using hrest
    · simpa only [Function.update_of_ne hj] using h.outlives hj hguar hs.invariant (hs.upholds j)
  | @launch P s i x p hp hl =>
    refine ⟨hs.invariant, fun j => ?_⟩
    by_cases hj : j = i
    · subst hj
      simpa using h.launched j p x s hl hs.invariant (hs.result hp)
    · simpa only [Function.update_of_ne hj] using hs.upholds j

/-- A run keeps all specifications. -/
theorem sound_exec {tr : List (Move ι Rep × Pool Req Rep R σ)}
    (h : Agreed env launch inv rely guar post) (hrun : Exec (PoolStep env launch) a tr b)
    (hs : Sound env inv rely guar post a) : Sound env inv rely guar post b :=
  hrun.invariant hs fun _ _ _ ht hstep => h.sound_step hstep ht

end Agreed

/-- The runs whose answers all meet `ok` are the runs in the environments that answer so. -/
theorem exec_restrict_iff [DecidableEq ι] {ok : ι → Env Req Rep σ} {a b : Pool Req Rep R σ}
    {tr : List (Move ι Rep × Pool Req Rep R σ)} :
    Exec (PoolStep (fun i s r v t => env i s r v t ∧ ok i s r v t) launch) a tr b ↔
      Exec (PoolStep env launch) a tr b ∧
        ∀ c i r v d, Exec.Takes (PoolStep env launch) a tr c (.answer i r v) d →
          ok i c.state r v d.state := by
  have hforget : ∀ (a : Pool Req Rep R σ) (m : Move ι Rep) (b : Pool Req Rep R σ),
      PoolStep (fun i s r v t => env i s r v t ∧ ok i s r v t) launch a m b →
      PoolStep env launch a m b := fun _ _ _ h => h.mono fun _ _ _ _ _ hv => hv.1
  constructor
  · intro hrun
    refine ⟨hrun.mono hforget, ?_⟩
    rintro c i r v d ⟨tr₁, tr₂, rfl, hc⟩
    obtain ⟨c', hc', hstep, -⟩ := hrun.cut
    obtain rfl := hc.unique (hc'.mono hforget)
    cases hstep with
    | answer hp hv => exact hv.2
  · rintro ⟨hrun, hok⟩
    induction hrun with
    | nil => exact .nil
    | @snoc tr c u l hrun hstep ih =>
      refine (ih fun c i r v d htk => hok c i r v d (htk.append _)).snoc ?_
      have hlast := Exec.takes_last (u := u) (l := l) hrun
      cases hstep with
      | answer hp hv => exact .answer hp ⟨hv, hok _ _ _ _ _ hlast⟩
      | launch hp hl => exact .launch hp hl

end Pool

/-! ## The answers one party gets -/

section History

/-- The requests of a program and the answers it got. -/
abbrev History (Req : Type) (Rep : Req → Type) : Type := List ((r : Req) × Rep r)

/-- `p`, answered as in `h`, returns `a`. -/
inductive Follows : Prog Req Rep α → History Req Rep → α → Prop
  | pure (a : α) : Follows (.pure a) [] a
  | ask {r : Req} {k : Rep r → Prog Req Rep α} {v : Rep r} {h : History Req Rep} {a : α} :
      Follows (k v) h a → Follows (.ask r k) (⟨r, v⟩ :: h) a

theorem follows_pure {a b : α} {h : History Req Rep}
    (hp : Follows (pure a : Prog Req Rep α) h b) : h = [] ∧ b = a := by
  cases hp
  exact ⟨rfl, rfl⟩

theorem follows_request_bind {r : Req} {f : Rep r → Prog Req Rep β} {h : History Req Rep} {b : β}
    (hp : Follows (Prog.request r >>= f) h b) : ∃ v t, h = ⟨r, v⟩ :: t ∧ Follows (f v) t b := by
  obtain @⟨⟩ | @⟨_, _, v, t, _, ht⟩ := hp
  exact ⟨v, t, rfl, ht⟩

theorem follows_pure_iff {a b : α} {h : History Req Rep} :
    Follows (pure a : Prog Req Rep α) h b ↔ h = [] ∧ b = a := by
  constructor
  · exact follows_pure
  · rintro ⟨rfl, rfl⟩
    exact .pure b

theorem follows_request_bind_iff {r : Req} {f : Rep r → Prog Req Rep β} {h : History Req Rep}
    {b : β} : Follows (Prog.request r >>= f) h b ↔ ∃ v t, h = ⟨r, v⟩ :: t ∧ Follows (f v) t b := by
  constructor
  · exact follows_request_bind
  · rintro ⟨v, t, rfl, ht⟩
    exact .ask ht

/-- The answers of `p >>= f` are those of `p` and then those of `f`. -/
theorem follows_bind {p : Prog Req Rep α} {f : α → Prog Req Rep β} {h : History Req Rep} {b : β}
    (hp : Follows (p >>= f) h b) :
    ∃ h₁ h₂ a, h = h₁ ++ h₂ ∧ Follows p h₁ a ∧ Follows (f a) h₂ b := by
  change Follows (p.bind f) h b at hp
  induction p generalizing h with
  | pure a => exact ⟨[], h, a, rfl, .pure a, hp⟩
  | ask r k ih =>
    obtain @⟨⟩ | @⟨_, _, v, t, _, ht⟩ := hp
    obtain ⟨h₁, h₂, a, rfl, hk, hf⟩ := ih v ht
    exact ⟨⟨r, v⟩ :: h₁, h₂, a, rfl, .ask hk, hf⟩

theorem Follows.bind {p : Prog Req Rep α} {f : α → Prog Req Rep β} {h₁ h₂ : History Req Rep} {a : α}
    {b : β} (hp : Follows p h₁ a) (hf : Follows (f a) h₂ b) : Follows (p >>= f) (h₁ ++ h₂) b := by
  induction hp with
  | pure a => exact hf
  | ask _ ih => exact .ask (ih hf)

/-- The requests of a program are among those it may ask. -/
theorem follows_within {P : Req → Prop} {p : Prog Req Rep α} {h : History Req Rep} {a : α}
    (hp : Within P p) (hf : Follows p h a) : ∀ x ∈ h, P x.1 := by
  induction hf with
  | pure a => simp
  | ask _ ih =>
    intro x hx
    rcases List.mem_cons.mp hx with rfl | hx
    · exact hp.1
    · exact ih (hp.2 _) x hx

/-- The answers the party `i` gets in a run. -/
def history {π : Type} [DecidableEq ι] (i : ι) : List (Move ι Rep × π) → History Req Rep
  | [] => []
  | (.answer j r v, _) :: tr => if j = i then ⟨r, v⟩ :: history i tr else history i tr
  | (.launch _, _) :: tr => history i tr

theorem history_append {π : Type} [DecidableEq ι] (i : ι) (tr tr' : List (Move ι Rep × π)) :
    history i (tr ++ tr') = history i tr ++ history i tr' := by
  induction tr with
  | nil => rfl
  | cons x tr ih =>
    obtain ⟨m, p⟩ := x
    cases m with
    | answer j r v =>
      simp only [List.cons_append, history, ih]
      split_ifs <;> rfl
    | launch j => simpa only [List.cons_append, history] using ih

/-- The answers the party got are those given in the steps of the run. -/
theorem mem_history {π : Type} [DecidableEq ι] {i : ι} {r : Req} {v : Rep r}
    {tr : List (Move ι Rep × π)} :
    (⟨r, v⟩ : (r : Req) × Rep r) ∈ history i tr ↔ ∃ p, (Move.answer i r v, p) ∈ tr := by
  induction tr with
  | nil => simp [history]
  | cons x tr ih =>
    obtain ⟨m, p⟩ := x
    cases m with
    | answer j r' v' =>
      by_cases hj : j = i
      · subst hj
        simp only [history, if_true, List.mem_cons, ih]
        constructor
        · rintro (heq | ⟨p', hp'⟩)
          · cases heq
            exact ⟨p, Or.inl rfl⟩
          · exact ⟨p', Or.inr hp'⟩
        · rintro ⟨p', heq | hp'⟩
          · cases heq
            exact Or.inl rfl
          · exact Or.inr ⟨p', hp'⟩
      · simp only [history, if_neg hj, List.mem_cons, ih]
        constructor
        · rintro ⟨p', hp'⟩
          exact ⟨p', Or.inr hp'⟩
        · rintro ⟨p', heq | hp'⟩
          · cases heq
            exact absurd rfl hj
          · exact ⟨p', hp'⟩
    | launch j =>
      simp only [history, List.mem_cons, ih]
      constructor
      · rintro ⟨p', hp'⟩
        exact ⟨p', Or.inr hp'⟩
      · rintro ⟨p', heq | hp'⟩
        · cases heq
        · exact ⟨p', hp'⟩

/-- A party that takes no step gets no answer. -/
theorem history_eq_nil {π : Type} [DecidableEq ι] {i : ι} {tr : List (Move ι Rep × π)}
    (h : ∀ x ∈ tr, ∀ r v, x.1 ≠ .answer i r v) : history i tr = [] := by
  rw [List.eq_nil_iff_forall_not_mem]
  rintro ⟨r, v⟩ hmem
  obtain ⟨p, hp⟩ := mem_history.mp hmem
  exact h _ hp r v rfl

/-- The answers the party got, cut at one of them, and the run cut at the step that gave it. -/
theorem history_eq_append {π : Type} [DecidableEq ι] {i : ι} {r : Req} {v : Rep r}
    {tr : List (Move ι Rep × π)} {h g : History Req Rep} :
    history i tr = h ++ ⟨r, v⟩ :: g ↔ ∃ tr₁ p tr₂, tr = tr₁ ++ (.answer i r v, p) :: tr₂ ∧
      history i tr₁ = h ∧ history i tr₂ = g := by
  constructor
  · induction tr generalizing h with
    | nil => simp [history]
    | cons x tr ih =>
      obtain ⟨m, p⟩ := x
      -- the steps of the others do not count
      have hskip : history i tr = h ++ ⟨r, v⟩ :: g → history i [(m, p)] = [] →
          ∃ tr₁ p' tr₂, (m, p) :: tr = tr₁ ++ (.answer i r v, p') :: tr₂ ∧
            history i tr₁ = h ∧ history i tr₂ = g := by
        intro hmem hnone
        obtain ⟨tr₁, p', tr₂, rfl, hh, hg⟩ := ih hmem
        refine ⟨(m, p) :: tr₁, p', tr₂, rfl, ?_, hg⟩
        rw [← List.singleton_append, history_append, hnone, hh, List.nil_append]
      cases m with
      | launch j => exact fun hmem => hskip hmem rfl
      | answer j r' v' =>
        by_cases hj : j = i
        · subst hj
          intro hmem
          simp only [history, if_true] at hmem
          cases h with
          | nil =>
            obtain ⟨heq, hg⟩ := List.cons.inj hmem
            cases heq
            exact ⟨[], p, tr, rfl, rfl, hg⟩
          | cons y h =>
            obtain ⟨rfl, hrest⟩ := List.cons.inj hmem
            obtain ⟨tr₁, p', tr₂, rfl, hh, hg⟩ := ih hrest
            refine ⟨(.answer j r' v', p) :: tr₁, p', tr₂, rfl, ?_, hg⟩
            simp only [history, if_true, hh]
        · intro hmem
          simp only [history, if_neg hj] at hmem
          exact hskip hmem (by simp only [history, if_neg hj])
  · rintro ⟨tr₁, p, tr₂, rfl, rfl, rfl⟩
    rw [history_append]
    simp only [history, if_true]

/-- A party that starts no other program goes through its own. -/
theorem follows_of_exec [DecidableEq ι] {env : ι → Env Req Rep σ}
    {launch : ∀ i, Prog Req Rep (R i) → σ → Prop} {a b : Pool Req Rep R σ}
    {tr : List (Move ι Rep × Pool Req Rep R σ)} {i : ι} {x : R i}
    (hno : ∀ p s, ¬launch i p s) (hrun : Exec (PoolStep env launch) a tr b)
    (hx : b.prog i = .pure x) : Follows (a.prog i) (history i tr) x := by
  have hrest : ∀ h, Follows (b.prog i) h x → Follows (a.prog i) (history i tr ++ h) x := by
    clear hx
    induction hrun with
    | nil => exact fun h hb => hb
    | @snoc tr t u l _ hstep ih =>
      intro h hu
      rw [history_append, List.append_assoc]
      apply ih
      cases hstep with
      | @answer P s w j r k v hp hv =>
        by_cases hj : j = i
        · subst hj
          simp only [Function.update_self] at hu
          simp only [history, if_true, hp]
          exact .ask hu
        · simpa [history, hj, Function.update_of_ne (Ne.symm hj)] using hu
      | @launch P s j y p hp hl =>
        have hj : i ≠ j := by
          rintro rfl
          exact hno _ _ hl
        simpa [history, Function.update_of_ne hj] using hu
  have hend : Follows (b.prog i) [] x := by
    rw [hx]
    exact .pure x
  simpa using hrest [] hend

/-- Where a party stands that goes through `q` and on with `f`: it is not through with `q`, or what
is left of `f` meets its specification. -/
def Partway (env : Env Req Rep σ) (inv : σ → Prop) (rely guar : σ → σ → Prop) (mid : β → σ → Prop)
    (post : α → σ → Prop) (q : Prog Req Rep β) (f : β → Prog Req Rep α) (h : History Req Rep)
    (p : Prog Req Rep α) (s : σ) : Prop :=
  (∃ r k, p = Prog.ask r k >>= f ∧ Upholds env inv rely guar mid (.ask r k) s ∧
      ∀ g x, Follows (.ask r k) g x → Follows q (h ++ g) x) ∨
    Upholds env inv rely guar post p s

/-- The party comes from `q` to `f` with what `q` leaves and the answers it got. -/
theorem partway_of {env : Env Req Rep σ} {inv : σ → Prop} {rely guar : σ → σ → Prop}
    {mid : β → σ → Prop} {post : α → σ → Prop} {q q' : Prog Req Rep β} {f : β → Prog Req Rep α}
    {h : History Req Rep} {s : σ} (hq : Upholds env inv rely guar mid q' s)
    (hlink : ∀ g x, Follows q' g x → Follows q (h ++ g) x)
    (hf : ∀ x, q' = pure x → Follows q h x → mid x s → Upholds env inv rely guar post (f x) s) :
    Partway env inv rely guar mid post q f h (q' >>= f) s := by
  cases q' with
  | pure x =>
    have hend := hlink [] x (.pure x)
    rw [List.append_nil] at hend
    exact Or.inr (hf x rfl hend hq)
  | ask r k => exact Or.inl ⟨r, k, rfl, hq, hlink⟩

theorem Partway.after {env : Env Req Rep σ} {inv : σ → Prop} {rely guar : σ → σ → Prop}
    {mid : β → σ → Prop} {post : α → σ → Prop} {q : Prog Req Rep β} {f : β → Prog Req Rep α}
    {h : History Req Rep} {p : Prog Req Rep α} {s t : σ}
    (hp : Partway env inv rely guar mid post q f h p s)
    (hmid : ∀ x s t, rely s t → inv s → inv t → mid x s → mid x t)
    (hpost : ∀ x, post x s → post x t) (hst : rely s t ∧ inv s ∧ inv t) :
    Partway env inv rely guar mid post q f h p t := by
  rcases hp with ⟨r, k, hk, hq, hlink⟩ | hp
  · exact Or.inl ⟨r, k, hk, hq.after (fun x => hmid x s t hst.1 hst.2.1 hst.2.2) hst, hlink⟩
  · exact Or.inr (hp.after hpost hst)

/-- A party that goes through `q` and on with `f`: what `q` leaves, together with the answers it
got, is what the specification of `f` may rest on. -/
theorem Agreed.sound_bind [DecidableEq ι] {env : ι → Env Req Rep σ}
    {launch : ∀ i, Prog Req Rep (R i) → σ → Prop} {inv : σ → Prop} {rely guar : ι → σ → σ → Prop}
    {post : ∀ i, R i → σ → Prop} {a b : Pool Req Rep R σ}
    {tr : List (Move ι Rep × Pool Req Rep R σ)} {i : ι} {q : Prog Req Rep β}
    {f : β → Prog Req Rep (R i)} {mid : β → σ → Prop} {y : R i}
    (h : Agreed env launch inv rely guar post) (hno : ∀ p s, ¬launch i p s)
    (hmid : ∀ x s t, rely i s t → inv s → inv t → mid x s → mid x t)
    (hrun : Exec (PoolStep env launch) a tr b) (hy : b.prog i = .pure y) (ha : a.prog i = q >>= f)
    (hinv : inv a.state) (hq : Upholds (env i) inv (rely i) (guar i) mid q a.state)
    (hothers : ∀ j, j ≠ i → Upholds (env j) inv (rely j) (guar j) (post j) (a.prog j) a.state)
    (hf : ∀ tr₁ tr₂ c x, tr = tr₁ ++ tr₂ → Exec (PoolStep env launch) c tr₂ b → c.prog i = f x →
      Follows q (history i tr₁) x → mid x c.state →
      Upholds (env i) inv (rely i) (guar i) (post i) (f x) c.state) :
    Sound env inv rely guar post b := by
  have hall : inv b.state ∧
      (∀ j, j ≠ i → Upholds (env j) inv (rely j) (guar j) (post j) (b.prog j) b.state) ∧
      Partway (env i) inv (rely i) (guar i) mid (post i) q f (history i tr) (b.prog i) b.state := by
    clear hy
    induction hrun with
    | nil =>
      refine ⟨hinv, hothers, ?_⟩
      rw [ha]
      refine partway_of hq (fun g x hg => hg) fun x hx hfollows hx' => ?_
      exact hf [] [] a x rfl .nil (by rw [ha, hx]; rfl) hfollows hx'
    | @snoc tr c u l hrun hstep ih =>
      obtain ⟨hinv, hothers, hpart⟩ := ih fun tr₁ tr₂ d x htr hexec =>
        hf tr₁ (tr₂ ++ [(l, u)]) d x (by rw [htr, List.append_assoc]) (hexec.snoc hstep)
      have hhistory : history i (tr ++ [(l, u)]) = history i tr ++ history i [(l, u)] :=
        history_append i tr [(l, u)]
      cases hstep with
      | @answer P s w j r k v hp hv =>
        by_cases hj : j = i
        · -- the party takes a step, of `q` or of `f`
          subst hj
          have hmore : history j (tr ++ [(.answer j r v, ⟨Function.update P j (k v), w⟩)]) =
              history j tr ++ [⟨r, v⟩] := by
            rw [hhistory]
            simp only [history, if_true]
          have hown : guar j s w ∧ Partway (env j) inv (rely j) (guar j) mid (post j) q f
              (history j tr ++ [⟨r, v⟩]) (k v) w := by
            -- the step is one of `q`, with `f` still to come, or one of `f`
            rcases hpart with ⟨r', k', hp', hq', hlink⟩ | hpost
            · cases hp.symm.trans hp'
              obtain ⟨hguar, hrest⟩ := hq' s .refl hinv v w hv
              refine ⟨hguar, partway_of hrest (fun g x hg => ?_) fun x hx hfollows hx' => ?_⟩
              · rw [List.append_assoc]
                exact hlink _ x (.ask hg)
              · refine hf _ [] _ x (List.append_nil _).symm .nil ?_ (hmore ▸ hfollows) hx'
                simp only [Function.update_self, hx]
                rfl
            · simp only [hp] at hpost
              obtain ⟨hguar, hrest⟩ := hpost s .refl hinv v w hv
              exact ⟨hguar, Or.inr hrest⟩
          obtain ⟨hguar, hnext⟩ := hown
          refine ⟨h.keeps j s w hguar hinv, fun j' hj' => ?_, ?_⟩
          · simpa only [Function.update_of_ne hj'] using
              h.outlives hj' hguar hinv (hothers j' hj')
          · rw [hmore]
            simpa only [Function.update_self] using hnext
        · -- another party takes a step
          have hown := hothers j hj
          simp only [hp] at hown
          obtain ⟨hguar, hrest⟩ := hown s .refl hinv v w hv
          refine ⟨h.keeps j s w hguar hinv, fun j' hj' => ?_, ?_⟩
          · by_cases hjj : j' = j
            · subst hjj
              simpa using hrest
            · simpa only [Function.update_of_ne hjj] using
                h.outlives hjj hguar hinv (hothers j' hj')
          · have hst := h.relied (Ne.symm hj) hguar hinv
            rw [hhistory]
            simp only [history, if_neg hj, List.append_nil, Function.update_of_ne (Ne.symm hj)]
            exact hpart.after hmid (fun x hx => h.stable i x s w hst.1 hinv hst.2.2 hx) hst
      | @launch P s j x p hp hl =>
        -- only another party is launched anew
        have hj : i ≠ j := by
          rintro rfl
          exact hno _ _ hl
        refine ⟨hinv, fun j' hj' => ?_, ?_⟩
        · by_cases hjj : j' = j
          · subst hjj
            have hresult := hothers j' hj'
            simp only [hp] at hresult
            simpa using h.launched j' p x s hl hinv hresult
          · simpa only [Function.update_of_ne hjj] using hothers j' hj'
        · rw [hhistory]
          simpa only [history, List.append_nil, Function.update_of_ne hj] using hpart
  -- the party has returned, so it is no longer in `q`
  obtain ⟨hinv, hothers, ⟨r, k, hp, -⟩ | hpost⟩ := hall
  · rw [hy] at hp
    cases hp
  · refine ⟨hinv, fun j => ?_⟩
    by_cases hj : j = i
    · exact hj ▸ hpost
    · exact hothers j hj

end History

/-! ## One party at a time -/

section Alone

/-- `p`, run from `s`, comes to the rest `q` in `t`. -/
inductive RunsTo (env : Env Req Rep σ) : Prog Req Rep α → σ → Prog Req Rep α → σ → Prop
  | refl (p : Prog Req Rep α) (s : σ) : RunsTo env p s p s
  | ask {r : Req} {k : Rep r → Prog Req Rep α} {s t u : σ} {v : Rep r} {q : Prog Req Rep α} :
      env s r v u → RunsTo env (k v) u q t → RunsTo env (.ask r k) s q t

variable {env : Env Req Rep σ} {s t : σ}

theorem RunsTo.bind {p q : Prog Req Rep α} (h : RunsTo env p s q t) (f : α → Prog Req Rep β) :
    RunsTo env (p >>= f) s (q >>= f) t := by
  induction h with
  | refl p s => exact .refl _ _
  | ask hv _ ih => exact .ask hv ih

theorem RunsTo.trans {p q q' : Prog Req Rep α} {u : σ} (h : RunsTo env p s q t)
    (h' : RunsTo env q t q' u) : RunsTo env p s q' u := by
  induction h with
  | refl p s => exact h'
  | ask hv _ ih => exact .ask hv (ih h')

theorem RunsTo.mono {env' : Env Req Rep σ} {p q : Prog Req Rep α} (h : RunsTo env p s q t)
    (henv : ∀ s r v t, env s r v t → env' s r v t) : RunsTo env' p s q t := by
  induction h with
  | refl p s => exact .refl p s
  | ask hv _ ih => exact .ask (henv _ _ _ _ hv) ih

theorem runsTo_pure {p : Prog Req Rep α} {a : α} (h : Runs env p s a t) :
    RunsTo env p s (.pure a) t := by
  induction p generalizing s with
  | pure b =>
    obtain ⟨rfl, rfl⟩ := h
    exact .refl _ _
  | ask r k ih =>
    obtain ⟨v, u, hv, h⟩ := h
    exact .ask hv (ih v h)

/-- The other parties may wait while one runs; `I` holds of every step of the run if the party's own
requests are answered so. -/
theorem RunsTo.exec_through [DecidableEq ι] (env : ι → Env Req Rep σ)
    (launch : ∀ i, Prog Req Rep (R i) → σ → Prop) (i : ι) (P : ∀ i, Prog Req Rep (R i))
    {I : (r : Req) → Rep r → σ → Prop} {q : Prog Req Rep (R i)}
    (h : RunsTo (fun s r v u => env i s r v u ∧ I r v u) (P i) s q t) :
    ∃ tr, Exec (PoolStep env launch) ⟨P, s⟩ tr ⟨Function.update P i q, t⟩ ∧
      ∀ x ∈ tr, ∃ r v, x.1 = .answer i r v ∧ I r v x.2.state := by
  have key : ∀ p : Prog Req Rep (R i),
      RunsTo (fun s r v u => env i s r v u ∧ I r v u) p s q t → ∃ tr,
      Exec (PoolStep env launch) ⟨Function.update P i p, s⟩ tr ⟨Function.update P i q, t⟩ ∧
        ∀ x ∈ tr, ∃ r v, x.1 = .answer i r v ∧ I r v x.2.state := by
    clear h
    intro p hp
    induction hp with
    | refl p s => exact ⟨[], .nil, by simp⟩
    | @ask r k s t u v q hv _ ih =>
      obtain ⟨tr, htr, hI⟩ := ih
      have hstep : PoolStep env launch ⟨Function.update P i (.ask r k), s⟩ (.answer i r v)
          ⟨Function.update P i (k v), u⟩ := by
        have hanswer : PoolStep env launch ⟨Function.update P i (.ask r k), s⟩ (.answer i r v)
            ⟨Function.update (Function.update P i (.ask r k)) i (k v), u⟩ :=
          .answer (Function.update_self i _ P) hv.1
        rwa [Function.update_idem] at hanswer
      refine ⟨_, (Exec.nil.snoc hstep).append htr, fun x hx => ?_⟩
      rcases List.mem_append.mp hx with hx | hx
      · obtain rfl := List.mem_singleton.mp hx
        exact ⟨r, v, rfl, hv.2⟩
      · exact hI x hx
  simpa using key (P i) h

theorem RunsTo.exec [DecidableEq ι] (env : ι → Env Req Rep σ)
    (launch : ∀ i, Prog Req Rep (R i) → σ → Prop) (i : ι) (P : ∀ i, Prog Req Rep (R i))
    {q : Prog Req Rep (R i)} (h : RunsTo (env i) (P i) s q t) :
    ∃ tr, Exec (PoolStep env launch) ⟨P, s⟩ tr ⟨Function.update P i q, t⟩ := by
  obtain ⟨tr, hrun, -⟩ := RunsTo.exec_through env launch i P (I := fun _ _ _ => True)
    (h.mono fun _ _ _ _ hv => ⟨hv, trivial⟩)
  exact ⟨tr, hrun⟩

/-- What is left of a party's program asks only requests of the kinds it may ask. -/
theorem within_of_exec [DecidableEq ι] {env : ι → Env Req Rep σ}
    {launch : ∀ i, Prog Req Rep (R i) → σ → Prop} {P : Req → Prop} {a b : Pool Req Rep R σ}
    {tr : List (Move ι Rep × Pool Req Rep R σ)} {i : ι}
    (hrun : Exec (PoolStep env launch) a tr b) (hlaunch : ∀ p s, launch i p s → Within P p)
    (ha : Within P (a.prog i)) : Within P (b.prog i) := by
  refine hrun.invariant (I := fun a => Within P (a.prog i)) ha fun t m u ht hstep => ?_
  cases hstep with
  | @answer Q s w j r k v hp hv =>
    by_cases hj : i = j
    · subst hj
      simp only [hp] at ht
      simpa using ht.2 v
    · simpa [Function.update_of_ne hj] using ht
  | @launch Q s j x p hp hl =>
    by_cases hj : i = j
    · subst hj
      simpa using hlaunch p s hl
    · simpa [Function.update_of_ne hj] using ht

/-- A program all of whose requests are answered runs to its end. -/
theorem exists_runs_of_within {P : Req → Prop} (htotal : ∀ s r, P r → ∃ v u, env s r v u)
    {p : Prog Req Rep α} (hp : Within P p) (s : σ) : ∃ a t, Runs env p s a t := by
  obtain ⟨a, t, h, -⟩ := @Within.exists_runs Req Rep α σ env P (fun _ => True) p s hp
    (fun s r _ hr => by
      obtain ⟨v, u, hv⟩ := htotal s r hr
      exact ⟨v, u, hv, trivial⟩) trivial
  exact ⟨a, t, h⟩

end Alone

end Interleaving
