import Mathlib.Data.Set.Basic
import Perchstation.Lib.Interleaving

/-!
# Evidence — parties that act on what they have seen, and may all be stopped

`LifeStep` is a step of a pool, or a stop: what is left of every program is dropped, the state stays.
Specifications that hold side by side outlive stops (`Agreed.sound_life`).

A `Discipline` says which evidence a request needs and what its answer shows.  The evidence is what the
state has on record (`seen`); it only grows, so what a party has seen stays true whatever the others do.
A program is `Backed` if every request it makes is covered by what it has seen.
-/

namespace Interleaving

open Resumption

variable {ι Req σ : Type} {Rep : Req → Type} {R : ι → Type} {α β : Type}

/-! ## Stops -/

section Life

variable [DecidableEq ι] {env : ι → Env Req Rep σ} {launch : ∀ i, Prog Req Rep (R i) → σ → Prop}
  {rest : ∀ i, R i}

/-- A step of the pool, or a stop after which every party is at rest. -/
inductive LifeStep (env : ι → Env Req Rep σ) (launch : ∀ i, Prog Req Rep (R i) → σ → Prop)
    (rest : ∀ i, R i) : Pool Req Rep R σ → Option (Move ι Rep) → Pool Req Rep R σ → Prop
  | work {a b : Pool Req Rep R σ} {m : Move ι Rep} : PoolStep env launch a m b →
      LifeStep env launch rest a (some m) b
  | stop (P : ∀ i, Prog Req Rep (R i)) (s : σ) :
      LifeStep env launch rest ⟨P, s⟩ none ⟨fun i => pure (rest i), s⟩

/-- A run without stops. -/
theorem exec_life {a b : Pool Req Rep R σ} {tr : List (Move ι Rep × Pool Req Rep R σ)}
    (h : Exec (PoolStep env launch) a tr b) : ∃ tr', Exec (LifeStep env launch rest) a tr' b := by
  induction h with
  | nil => exact ⟨[], .nil⟩
  | snoc _ hs ih =>
    obtain ⟨tr', h'⟩ := ih
    exact ⟨_, h'.snoc (.work hs)⟩

/-- A party runs its program while the others are at rest. -/
theorem exec_alone {i : ι} {p : Prog Req Rep (R i)} {s t : σ} (hl : launch i p s)
    (h : Runs (env i) p s (rest i) t) :
    ∃ tr, Exec (LifeStep env launch rest) ⟨fun j => pure (rest j), s⟩ tr
      ⟨fun j => pure (rest j), t⟩ := by
  have hlaunch : PoolStep env launch ⟨fun j => pure (rest j), s⟩ (.launch i)
      ⟨Function.update (fun j => pure (rest j)) i p, s⟩ := .launch rfl hl
  have hto : RunsTo (env i) (Function.update (fun j => pure (rest j)) i p i) s (.pure (rest i)) t := by
    rw [Function.update_self]
    exact runsTo_pure h
  obtain ⟨tr, hrun⟩ := hto.exec env launch
  have hend : Function.update (Function.update (fun j => pure (rest j)) i p) i (.pure (rest i)) =
      fun j => (pure (rest j) : Prog Req Rep (R j)) := by
    rw [Function.update_idem]
    exact Function.update_eq_self i _
  rw [hend] at hrun
  exact exec_life ((Exec.nil.snoc hlaunch).append hrun)

/-- A run over other states is a run over their images, if the requests that its programs may make are
answered alike. -/
theorem exec_mapLife {τ : Type} {env' : ι → Env Req Rep τ}
    {launch' : ∀ i, Prog Req Rep (R i) → τ → Prop} {P : Req → Prop} {a b : Pool Req Rep R σ}
    {tr : List (Option (Move ι Rep) × Pool Req Rep R σ)} (f : σ → τ)
    (henv : ∀ i s r v t, P r → env i s r v t → env' i (f s) r v (f t))
    (hlaunch : ∀ i p s, launch i p s → Within P p ∧ launch' i p (f s))
    (h : Exec (LifeStep env launch rest) a tr b) (ha : ∀ i, Within P (a.prog i)) :
    (∀ i, Within P (b.prog i)) ∧ ∃ tr', Exec (LifeStep env' launch' rest) ⟨a.prog, f a.state⟩ tr'
      ⟨b.prog, f b.state⟩ := by
  induction h with
  | nil => exact ⟨ha, [], .nil⟩
  | @snoc tr t u l _ hs ih =>
    obtain ⟨hprog, tr', hrun⟩ := ih
    cases hs with
    | @work _ _ m hstep =>
      cases hstep with
      | @answer Q s w i r k v hp hv =>
        have hown := hprog i
        simp only [hp] at hown
        refine ⟨fun j => ?_, _, hrun.snoc (.work (.answer hp (henv i _ _ _ _ hown.1 hv)))⟩
        by_cases hj : j = i
        · subst hj
          simpa using hown.2 v
        · simpa only [Function.update_of_ne hj] using hprog j
      | @launch Q s i x q hp hl =>
        obtain ⟨hq, hl'⟩ := hlaunch i q s hl
        refine ⟨fun j => ?_, _, hrun.snoc (.work (.launch hp hl'))⟩
        by_cases hj : j = i
        · subst hj
          simpa using hq
        · simpa only [Function.update_of_ne hj] using hprog j
    | stop Q s => exact ⟨fun _ => within_pure _, _, hrun.snoc (.stop Q _)⟩

/-- Specifications outlive every stop. -/
theorem Agreed.sound_life {inv : σ → Prop} {rely guar : ι → σ → σ → Prop}
    {post : ∀ i, R i → σ → Prop} {a b : Pool Req Rep R σ}
    {tr : List (Option (Move ι Rep) × Pool Req Rep R σ)}
    (h : Agreed env launch inv rely guar post)
    (hrest : ∀ i s, inv s → post i (rest i) s) (hrun : Exec (LifeStep env launch rest) a tr b)
    (hs : Sound env inv rely guar post a) : Sound env inv rely guar post b := by
  refine hrun.invariant hs fun t l u ht hstep => ?_
  cases hstep with
  | work hstep => exact h.sound_step hstep ht
  | stop P s => exact ⟨ht.invariant, fun i => hrest i s ht.invariant⟩

/-- A program all of whose requests do what the party guarantees. -/
theorem upholds_of_within {inv : σ → Prop} {rely guar : σ → σ → Prop}
    {env : Env Req Rep σ} {P : Req → Prop} {p : Prog Req Rep α} (hp : Within P p)
    (hguar : ∀ s r v t, P r → inv s → env s r v t → guar s t) (s : σ) :
    Upholds env inv rely guar (fun _ _ => True) p s := by
  induction p generalizing s with
  | pure a => trivial
  | ask r k ih =>
    intro t _ hi v u hv
    exact ⟨hguar t r v u hp.1 hi hv, ih v (hp.2 v) u⟩

end Life

/-- A run can be put on record, request by request. -/
theorem exists_recorded {δ : Type} {env : Env Req Rep σ} {env' : Env Req Rep (σ × List δ)}
    (note : σ → (r : Req) → Rep r → δ)
    (henv : ∀ s d r v t, env s r v t → env' (s, d) r v (t, d ++ [note s r v])) {p : Prog Req Rep α}
    {s t : σ} {a : α} (h : Runs env p s a t) (d : List δ) :
    ∃ d', Runs env' p (s, d) a (t, d') := by
  induction p generalizing s d with
  | pure b =>
    obtain ⟨rfl, rfl⟩ := h
    exact ⟨d, rfl, rfl⟩
  | ask r k ih =>
    obtain ⟨v, u, hv, h⟩ := h
    obtain ⟨d', hrun⟩ := ih v h (d ++ [note s r v])
    exact ⟨d', v, _, henv s d r v u hv, hrun⟩

/-! ## Evidence -/

variable {κ : Type} [Preorder κ]

/-- The evidence a request needs, and what its answer shows. -/
structure Discipline (Req : Type) (Rep : Req → Type) (κ : Type) [Preorder κ] where
  needs : Req → κ → Prop
  shows : (r : Req) → Rep r → κ → Prop
  needs_mono {r : Req} {k k' : κ} : k ≤ k' → needs r k → needs r k'

/-- Every request of the program is covered by the evidence `k` and by what its answers show; its
result meets `post`. -/
def Backed (D : Discipline Req Rep κ) (post : α → κ → Prop) : Prog Req Rep α → κ → Prop
  | .pure a, k => post a k
  | .ask r cont, k => D.needs r k ∧ ∀ v k', k ≤ k' → D.shows r v k' → Backed D post (cont v) k'

section Backed

variable {D : Discipline Req Rep κ} {post post' : α → κ → Prop} {p : Prog Req Rep α} {k k' : κ}

theorem backed_request {r : Req} {f : Rep r → Prog Req Rep α} (hr : D.needs r k)
    (hf : ∀ v k', k ≤ k' → D.shows r v k' → Backed D post (f v) k') :
    Backed D post (Prog.request r >>= f) k := ⟨hr, hf⟩

theorem Backed.bind {mid : β → κ → Prop} {q : Prog Req Rep β} {f : β → Prog Req Rep α}
    (hq : Backed D mid q k) (hf : ∀ b k', k ≤ k' → mid b k' → Backed D post (f b) k') :
    Backed D post (q >>= f) k := by
  show Backed D post (q.bind f) k
  induction q generalizing k with
  | pure b => exact hf b k le_rfl hq
  | ask r cont ih =>
    exact ⟨hq.1, fun v k' hk hv =>
      ih v (hq.2 v k' hk hv) fun b k'' hk' => hf b k'' (hk.trans hk')⟩

end Backed

/-- A request that is covered does what the party guarantees, and is put on record with its answer. -/
def Enforces (D : Discipline Req Rep κ) (seen : σ → κ) (inv : σ → Prop) (guar : σ → σ → Prop)
    (env : Env Req Rep σ) : Prop :=
  ∀ s r v t, env s r v t → inv s → D.needs r (seen s) →
    guar s t ∧ seen s ≤ seen t ∧ D.shows r v (seen t)

/-- A backed program, among parties that only add to the record. -/
theorem Backed.upholds {D : Discipline Req Rep κ} {seen : σ → κ} {inv : σ → Prop}
    {rely guar : σ → σ → Prop} {env : Env Req Rep σ}
    {post : α → κ → Prop} {p : Prog Req Rep α} {s : σ} (henv : Enforces D seen inv guar env)
    (hrely : ∀ s t, rely s t → seen s ≤ seen t) (h : Backed D post p (seen s)) :
    Upholds env inv rely guar (fun a t => post a (seen t)) p s := by
  induction p generalizing s with
  | pure a => exact h
  | ask r cont ih =>
    intro t hdrift hi v u hv
    have hle : seen s ≤ seen t :=
      hdrift.preserves (A := fun u => seen s ≤ seen u)
        (fun _ _ hr _ _ hs => hs.trans (hrely _ _ hr)) le_rfl
    obtain ⟨hguar, hgrow, hshow⟩ := henv t r v u hv hi (D.needs_mono hle h.1)
    exact ⟨hguar, ih v (h.2 v _ (hle.trans hgrow) hshow)⟩

end Interleaving
