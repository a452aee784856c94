import Perchstation.Lib.Interleaving
import Perchstation.Lib.Spec

/-!
# Beside — programs that use two interfaces

`useLeft` and `useRight` run a program of one interface among programs of both.  In `beside E` the
left requests are answered by `E`; the right ones may be answered in any way, and are put on record.
In `paired E E'` each side is answered by its own environment.
-/

namespace Resumption

open Interleaving

variable {Req Req' : Type} {Rep : Req → Type} {Rep' : Req' → Type} {α σ : Type}

/-- The answers of both interfaces. -/
abbrev Both (Rep : Req → Type) (Rep' : Req' → Type) : Req ⊕ Req' → Type := Sum.elim Rep Rep'

def useLeft (p : Prog Req Rep α) : Prog (Req ⊕ Req') (Both Rep Rep') α :=
  embed Sum.inl (fun _ v => v) p

def useRight (p : Prog Req' Rep' α) : Prog (Req ⊕ Req') (Both Rep Rep') α :=
  embed Sum.inr (fun _ v => v) p

/-- The left requests work on the first state, and the right ones are recorded in the second. -/
def beside (E : Env Req Rep σ) : Env (Req ⊕ Req') (Both Rep Rep') (σ × History Req' Rep')
  | s, .inl r, v, t => E s.1 r v t.1 ∧ t.2 = s.2
  | s, .inr r, v, t => t.1 = s.1 ∧ t.2 = s.2 ++ [⟨r, v⟩]

/-- The left requests work on the first state and the right ones on the second. -/
def paired {τ : Type} (E : Env Req Rep σ) (E' : Env Req' Rep' τ) :
    Env (Req ⊕ Req') (Both Rep Rep') (σ × τ)
  | s, .inl r, v, t => E s.1 r v t.1 ∧ t.2 = s.2
  | s, .inr r, v, t => t.1 = s.1 ∧ E' s.2 r v t.2

section Paired

variable {τ : Type} {E : Env Req Rep σ} {E' : Env Req' Rep' τ} {s t : σ × τ} {a : α}

theorem runs_paired_left {p : Prog Req Rep α} :
    Runs (paired E E') (useLeft p) s a t ↔ Runs E p s.1 a t.1 ∧ t.2 = s.2 := by
  induction p generalizing s with
  | pure b =>
    constructor
    · rintro ⟨rfl, rfl⟩
      exact ⟨⟨rfl, rfl⟩, rfl⟩
    · rintro ⟨⟨rfl, hfst⟩, hsnd⟩
      exact ⟨rfl, Prod.ext hfst hsnd⟩
  | ask r k ih =>
    constructor
    · rintro ⟨v, u, ⟨hv, hu⟩, hrun⟩
      obtain ⟨hrest, ht⟩ := (ih v).mp hrun
      exact ⟨⟨v, u.1, hv, hrest⟩, ht.trans hu⟩
    · rintro ⟨⟨v, u, hv, hrest⟩, ht⟩
      exact ⟨v, (u, s.2), ⟨hv, rfl⟩, (ih v).mpr ⟨hrest, ht⟩⟩

theorem runs_paired_right {p : Prog Req' Rep' α} :
    Runs (paired E E') (useRight p) s a t ↔ t.1 = s.1 ∧ Runs E' p s.2 a t.2 := by
  induction p generalizing s with
  | pure b =>
    constructor
    · rintro ⟨rfl, rfl⟩
      exact ⟨rfl, rfl, rfl⟩
    · rintro ⟨hfst, rfl, hsnd⟩
      exact ⟨rfl, Prod.ext hfst hsnd⟩
  | ask r k ih =>
    constructor
    · rintro ⟨v, u, ⟨hu, hv⟩, hrun⟩
      obtain ⟨ht, hrest⟩ := (ih v).mp hrun
      exact ⟨ht.trans hu, v, u.2, hv, hrest⟩
    · rintro ⟨ht, v, u, hv, hrest⟩
      exact ⟨v, (s.1, u), ⟨rfl, hv⟩, (ih v).mpr ⟨ht, hrest⟩⟩

end Paired

section Rules

variable {E : Env Req Rep σ} {s t : σ × History Req' Rep'}

theorem runs_useLeft {p : Prog Req Rep α} {a : α} :
    Runs (beside E) (useLeft p) s a t ↔ Runs E p s.1 a t.1 ∧ t.2 = s.2 := by
  induction p generalizing s with
  | pure b =>
    constructor
    · rintro ⟨rfl, rfl⟩
      exact ⟨⟨rfl, rfl⟩, rfl⟩
    · rintro ⟨⟨rfl, hfst⟩, hsnd⟩
      exact ⟨rfl, Prod.ext hfst hsnd⟩
  | ask r k ih =>
    constructor
    · rintro ⟨v, u, ⟨hv, hu⟩, hrun⟩
      obtain ⟨hrest, ht⟩ := ih v |>.mp hrun
      exact ⟨⟨v, u.1, hv, hrest⟩, ht.trans hu⟩
    · rintro ⟨⟨v, u, hv, hrest⟩, ht⟩
      exact ⟨v, (u, s.2), ⟨hv, rfl⟩, (ih v).mpr ⟨hrest, ht⟩⟩

theorem reaches_useLeft {p : Prog Req Rep α} :
    Reaches (beside E) (useLeft p) s t ↔ Reaches E p s.1 t.1 ∧ t.2 = s.2 := by
  induction p generalizing s with
  | pure b =>
    constructor
    · rintro rfl
      exact ⟨rfl, rfl⟩
    · rintro ⟨hfst, hsnd⟩
      exact Prod.ext hfst hsnd
  | ask r k ih =>
    constructor
    · rintro (rfl | ⟨v, u, ⟨hv, hu⟩, hreach⟩)
      · exact ⟨Or.inl rfl, rfl⟩
      · obtain ⟨hrest, ht⟩ := (ih v).mp hreach
        exact ⟨Or.inr ⟨v, u.1, hv, hrest⟩, ht.trans hu⟩
    · rintro ⟨hfst | ⟨v, u, hv, hrest⟩, hsnd⟩
      · exact Or.inl (Prod.ext hfst hsnd)
      · exact Or.inr ⟨v, (u, s.2), ⟨hv, rfl⟩, (ih v).mpr ⟨hrest, hsnd⟩⟩

theorem runs_useRight {p : Prog Req' Rep' α} {a : α} :
    Runs (beside E) (useRight p) s a t ↔ ∃ h, Follows p h a ∧ t = (s.1, s.2 ++ h) := by
  induction p generalizing s with
  | pure b =>
    constructor
    · rintro ⟨rfl, rfl⟩
      exact ⟨[], .pure a, by rw [List.append_nil]⟩
    · rintro ⟨h, hf, rfl⟩
      obtain ⟨rfl, rfl⟩ := follows_pure hf
      exact ⟨rfl, by rw [List.append_nil]⟩
  | ask r k ih =>
    constructor
    · rintro ⟨v, u, ⟨hfst, hsnd⟩, hrun⟩
      obtain ⟨h, hf, rfl⟩ := (ih v).mp hrun
      refine ⟨⟨r, v⟩ :: h, .ask hf, ?_⟩
      rw [hfst, hsnd, List.append_assoc]
      rfl
    · rintro ⟨h, hf, rfl⟩
      obtain ⟨v, rest, rfl, hrest⟩ := follows_request_bind hf
      refine ⟨v, (s.1, s.2 ++ [⟨r, v⟩]), ⟨rfl, rfl⟩, (ih v).mpr ⟨rest, hrest, ?_⟩⟩
      rw [List.append_assoc]
      rfl

/-- With an answer to every request, a program can be finished. -/
theorem exists_follows [∀ r, Nonempty (Rep' r)] (p : Prog Req' Rep' α) : ∃ h a, Follows p h a := by
  induction p with
  | pure a => exact ⟨[], a, .pure a⟩
  | ask r k ih =>
    obtain ⟨v⟩ : Nonempty (Rep' r) := inferInstance
    obtain ⟨h, a, hf⟩ := ih v
    exact ⟨⟨r, v⟩ :: h, a, .ask hf⟩

/-- What is on record when a program is stopped could have gone on. -/
theorem reaches_useRight [∀ r, Nonempty (Rep' r)] {p : Prog Req' Rep' α}
    (hreach : Reaches (beside E) (useRight p) s t) :
    ∃ h, t = (s.1, s.2 ++ h) ∧ ∃ rest a, Follows p (h ++ rest) a := by
  induction p generalizing s with
  | pure b =>
    obtain rfl := hreach
    exact ⟨[], by rw [List.append_nil], [], b, .pure b⟩
  | ask r k ih =>
    rcases hreach with rfl | ⟨v, u, ⟨hfst, hsnd⟩, hreach⟩
    · obtain ⟨rest, a, hf⟩ := exists_follows (Prog.ask r k)
      exact ⟨[], by rw [List.append_nil], rest, a, hf⟩
    · obtain ⟨h, rfl, rest, a, hf⟩ := ih v hreach
      refine ⟨⟨r, v⟩ :: h, ?_, rest, a, .ask hf⟩
      rw [hfst, hsnd, List.append_assoc]
      rfl

end Rules

end Resumption
