import Perchstation.Queue.Store

/-!
# Reported faults — what a successful reconciliation has met

A reconciliation passes on every error that it is told of.  So it comes to its end only if nothing
has failed, and a successful run is one without faults.
-/

namespace Perchstation

open Resumption QueueStore

/-- The reply is an error, and not that a file is missing: its caller is told of a fault. -/
def Req.Told : (r : Req) → Rep r → Prop
  | .metadata _, v => ∃ e, e ≠ IoError.notFound ∧ v = .error e
  | .rename _ _, v => ∃ e, e ≠ IoError.notFound ∧ v = .error e
  | .copy _ _, v => ∃ e, e ≠ IoError.notFound ∧ v = .error e
  | .removeFile _, v => ∃ e, e ≠ IoError.notFound ∧ v = .error e
  | .write _ _, v => ∃ e, e ≠ IoError.notFound ∧ v = .error e
  | .read _, v => ∃ e, e ≠ IoError.notFound ∧ v = .error e
  | .readDir _, v => ∃ e, e ≠ IoError.notFound ∧ v = .error e
  | .createDirAll _, v => ∃ e, e ≠ IoError.notFound ∧ v = .error e
  | .openFile _, v => ∃ e, e ≠ IoError.notFound ∧ v = .error e
  | _, _ => False

/-- Any call may fail, and tells so. -/
def Reporting : Env Req Rep Fs := fun fs r v t => Nominal fs r v t ∨ Faulty fs r v t ∧ r.Told v

variable {β : Type} {e : ClipQueueEntry} {p q : Path}

theorem detects_rename : Detects Reporting Nominal (rename p q) := by
  intro fs a t h
  rcases runs_rename.mp h with h | ⟨-, err, -, herr⟩
  · exact runs_rename.mpr h
  · cases herr

theorem detects_write {b : Blob} : Detects Reporting Nominal (write p b) := by
  intro fs a t h
  rcases runs_write.mp h with h | ⟨-, err, -, herr⟩
  · exact runs_write.mpr h
  · cases herr

theorem detects_read : Detects Reporting Nominal (read p) := by
  intro fs a t h
  rcases runs_read.mp h with h | ⟨-, err, -, herr⟩
  · exact runs_read.mpr h
  · cases herr

theorem detects_readDir {d : Dir} : Detects Reporting Nominal (readDir d) := by
  intro fs a t h
  rcases runs_readDir.mp h with h | ⟨-, err, -, herr⟩
  · exact runs_readDir.mpr h
  · cases herr

/-- An existence check has no fault to tell of. -/
theorem detects_fileExists {f : Bool → Act (Except QueueError β)}
    (hf : ∀ b, Detects Reporting Nominal (f b)) :
    Detects Reporting Nominal (fileExists p >>= f) := by
  intro fs a t h
  obtain ⟨b, u, h1, h2⟩ := (runs_bind _ _ _ _ _).mp h
  rcases runs_fileExists.mp h1 with h1 | ⟨-, htold⟩
  · exact (runs_bind _ _ _ _ _).mpr ⟨b, u, runs_fileExists.mpr h1, hf b u a t h2⟩
  · exact htold.elim

theorem detects_removeIfExists : Detects Reporting Nominal (removeIfExists p) := by
  intro fs a t h
  obtain ⟨v, u, h1, h2⟩ := (runs_bind _ _ _ _ _).mp h
  rcases runs_removeFile.mp h1 with h1 | ⟨-, err, hne, rfl⟩
  · exact (runs_bind _ _ _ _ _).mpr ⟨v, u, runs_removeFile.mpr h1, by
      cases v with
      | error err => cases err <;> exact h2
      | ok _ => exact h2⟩
  · cases err with
    | notFound => exact absurd rfl hne
    | _ => cases h2.1

theorem detects_writeSidecarAtomic : Detects Reporting Nominal (writeSidecarAtomic p e) := by
  refine detects_write.bind (fun _ => ⟨_, rfl⟩) fun _ => ?_
  exact detects_rename.bind (fun _ => ⟨_, rfl⟩) fun _ => detects_pure _

theorem detects_readSidecar : Detects Reporting Nominal (readSidecar p) := by
  refine detects_read.bind (fun _ => ⟨_, rfl⟩) fun b => ?_
  dsimp only
  cases b.decode <;> exact detects_pure _

theorem detects_transitionDelivered : Detects Reporting Nominal (transitionDelivered e) := by
  refine detects_writeSidecarAtomic.bind (fun _ => ⟨_, rfl⟩) fun _ => ?_
  refine detects_removeIfExists.bind (fun _ => ⟨_, rfl⟩) fun _ => ?_
  exact detects_rename.bind (fun _ => ⟨_, rfl⟩) fun _ => detects_pure _

theorem detects_returnMedia : Detects Reporting Nominal (returnMedia p q) := by
  refine detects_fileExists fun b => ?_
  cases b with
  | false => exact detects_pure _
  | true => exact detects_rename.bind (fun _ => ⟨_, rfl⟩) fun _ => detects_pure _

theorem detects_transitionBackToPending :
    Detects Reporting Nominal (transitionBackToPending e) := by
  refine detects_returnMedia.bind (fun _ => ⟨_, rfl⟩) fun _ => ?_
  refine detects_writeSidecarAtomic.bind (fun _ => ⟨_, rfl⟩) fun _ => ?_
  exact detects_removeIfExists

theorem detects_sweepLoop (l : List Path) : Detects Reporting Nominal (sweepLoop l) := by
  induction l with
  | nil => exact detects_pure _
  | cons path rest ih =>
    rw [sweepLoop]
    split
    · refine detects_fileExists fun b => ?_
      cases b with
      | true => exact ih
      | false => exact detects_removeIfExists.bind (fun _ => ⟨_, rfl⟩) fun _ => ih
    · exact ih

theorem detects_sweepOrphanMedia {d : Dir} : Detects Reporting Nominal (sweepOrphanMedia d) :=
  detects_readDir.bind (fun _ => ⟨_, rfl⟩) detects_sweepLoop

theorem detects_reconcileLoop (l : List Path) : Detects Reporting Nominal (reconcileLoop l) := by
  induction l with
  | nil => exact detects_pure _
  | cons path rest ih =>
    refine detects_readSidecar.bind (fun _ => ⟨_, rfl⟩) fun e => ?_
    dsimp only
    split
    · exact detects_transitionDelivered.bind (fun _ => ⟨_, rfl⟩) fun _ => ih
    · refine detects_transitionBackToPending.bind (fun _ => ⟨_, rfl⟩) fun _ => ?_
      exact ih.bind (fun _ => ⟨_, rfl⟩) fun _ => detects_pure _

/-- A reconciliation that returns its entries has met no fault. -/
theorem detects_reconcileInflight : Detects Reporting Nominal reconcileInflight := by
  refine detects_sweepOrphanMedia.bind (fun _ => ⟨_, rfl⟩) fun _ => ?_
  refine detects_sweepOrphanMedia.bind (fun _ => ⟨_, rfl⟩) fun _ => ?_
  exact detects_readDir.bind (fun _ => ⟨_, rfl⟩) fun l => detects_reconcileLoop _

end Perchstation
