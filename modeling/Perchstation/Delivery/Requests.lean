import Perchstation.Delivery.Classify
import Perchstation.Delivery.Runner
import Perchstation.Lib.Interleaving

/-!
# Requests — what the operations of the queue ask for

For each operation, the requests it makes whatever the replies are.  A property of requests that
covers them holds of all the operation asks.
-/

namespace Perchstation

open Resumption QueueStore

/-- The requests of a scan are of the kind `P`. -/
structure AllowsScan (P : Req → Prop) : Prop where
  readDir : ∀ d, P (.readDir d)
  read : ∀ p, P (.read p)
  createDirAll : ∀ d, P (.createDirAll d)
  fileExists : ∀ p, P (.fileExists p)
  moveTo : ∀ p, P (.rename p (p.moveTo .corrupt))

/-- The requests that write, move and remove sidecars are of the kind `P`. -/
structure AllowsRecords (P : Req → Prop) : Prop where
  write : ∀ p e, P (.write p (.sidecar e))
  removeFile : ∀ p, P (.removeFile p)
  rename : ∀ p d c, P (.rename p (.queue d c .json))

variable {P : Req → Prop} {p : Path} {e : ClipQueueEntry} {at_ : DateTime}

theorem within_removeIfExists (h : P (.removeFile p)) : Within P (removeIfExists p) := by
  refine .bind (within_request h) fun v => ?_
  rcases v with (_ | _ | _) | _ <;> exact within_pure _

theorem within_readSidecar (h : P (.read p)) : Within P (readSidecar p) := by
  refine .bind (within_request h) fun v => ?_
  rcases v with _ | b
  · exact within_pure _
  · dsimp only
    split <;> exact within_pure _

namespace AllowsScan

variable (h : AllowsScan P)

include h

theorem within_quarantineCorrupt : Within P (quarantineCorrupt p) := by
  refine .bind (within_request (h.createDirAll _)) fun v => ?_
  rcases v with _ | _
  · exact within_pure _
  · refine .bind (within_request (h.moveTo p)) fun v => ?_
    rcases v with _ | _
    · exact within_pure _
    · refine .bind (within_request (h.fileExists _)) fun v => ?_
      cases v
      · exact within_pure _
      · exact .bind (within_request (h.moveTo _)) fun _ => within_pure _

theorem within_scanPending {paths : List Path} : Within P (scanPending at_ paths) := by
  induction paths with
  | nil => exact within_pure _
  | cons p rest ih =>
    refine .bind (within_readSidecar (h.read p)) fun v => ?_
    rcases v with (_ | _ | _ | _) | entry
    · exact ih
    · exact .bind h.within_quarantineCorrupt fun _ => ih
    · exact ih
    · exact ih
    · dsimp only
      split
      · split_ifs
        · exact ih
        · exact within_pure _
      · exact within_pure _

theorem within_pickOldestPending : Within P (pickOldestPending at_) := by
  refine .bind (within_request (h.readDir _)) fun v => ?_
  rcases v with _ | paths
  · exact within_pure _
  · exact h.within_scanPending

end AllowsScan

namespace AllowsRecords

variable (h : AllowsRecords P)

include h

theorem within_writeSidecarAtomic {d : Dir} {c : ClipId} :
    Within P (writeSidecarAtomic (.queue d c .json) e) := by
  refine .bind (within_request (h.write _ _)) fun v => ?_
  rcases v with _ | _
  · exact within_pure _
  · refine .bind (within_request (h.rename _ _ _)) fun v => ?_
    rcases v with _ | _ <;> exact within_pure _

theorem within_quarantineOrphan {c : ClipId} : Within P (quarantineOrphan c) := by
  refine .bind (within_removeIfExists (h.removeFile _)) fun v => ?_
  rcases v with _ | _
  · exact within_pure _
  · exact within_removeIfExists (h.removeFile _)

theorem within_transitionDelivered : Within P (transitionDelivered e) := by
  refine .bind h.within_writeSidecarAtomic fun v => ?_
  rcases v with _ | _
  · exact within_pure _
  · refine .bind (within_removeIfExists (h.removeFile _)) fun v => ?_
    rcases v with _ | _
    · exact within_pure _
    · refine .bind (within_request (h.rename _ _ _)) fun v => ?_
      rcases v with _ | _ <;> exact within_pure _

theorem within_startUpload (hlen : ∀ p, P (.metadata p)) (hnow : P .now) :
    Within P (startUpload e) := by
  have hcheck : Within P (preflightCheck (.queue .inflight e.clipId .mp4)) := by
    refine .bind (within_request (hlen _)) fun v => ?_
    rcases v with _ | len
    · exact within_pure _
    · dsimp only
      split_ifs <;> exact within_pure _
  refine .bind hcheck fun check => ?_
  cases check with
  | none => exact within_pure _
  | some reason =>
    refine .bind (within_request hnow) fun at_ => ?_
    refine .bind h.within_transitionDelivered fun v => ?_
    rcases v with _ | _ <;> exact within_pure _

theorem within_transitionInflight
    (hmedia : ∀ d d' c, P (.rename (.queue d c .mp4) (.queue d' c .mp4))) :
    Within P (transitionInflight e at_) := by
  refine .bind (within_request (hmedia _ _ _)) fun v => ?_
  rcases v with (_ | _ | _) | _
  · exact within_pure _
  · exact within_pure _
  · exact within_pure _
  · refine .bind h.within_writeSidecarAtomic fun v => ?_
    rcases v with _ | _
    · exact .bind (within_request (hmedia _ _ _)) fun _ => within_pure _
    · refine .bind (within_removeIfExists (h.removeFile _)) fun v => ?_
      rcases v with _ | _ <;> exact within_pure _

end AllowsRecords

/-- The first half of `try_once` asks for a scan, the records, a hand-off and a pre-flight check. -/
theorem within_tryOnceHead (hscan : AllowsScan P) (hrecords : AllowsRecords P)
    (hmedia : ∀ d d' c, P (.rename (.queue d c .mp4) (.queue d' c .mp4)))
    (hlen : ∀ p, P (.metadata p)) (hnow : P .now) : Within P tryOnceHead := by
  refine .bind (within_request hnow) fun at_ => ?_
  refine .bind hscan.within_pickOldestPending fun v => ?_
  rcases v with _ | _ | entry
  · exact within_pure _
  · exact within_pure _
  · refine .bind (hrecords.within_transitionInflight hmedia) fun v => ?_
    rcases v with (_ | _ | _ | _) | entry
    all_goals first
      | exact within_pure _
      | exact hrecords.within_startUpload hlen hnow
      | skip
    refine .bind hrecords.within_quarantineOrphan fun v => ?_
    rcases v with _ | _ <;> exact within_pure _

/-! ## What stays on the station -/

/-- The requests to the files, to the clock and to nobody else are of the kind `P`. -/
structure AllowsLocal (P : Req → Prop) : Prop extends AllowsScan P, AllowsRecords P where
  handOff : ∀ d d' c, P (.rename (.queue d c .mp4) (.queue d' c .mp4))
  metadata : ∀ p, P (.metadata p)
  now : P .now
  abort : P .abort

namespace AllowsLocal

variable (h : AllowsLocal P)

include h

theorem within_transitionBackToPending : Within P (transitionBackToPending e) := by
  have hreturn : Within P (returnMedia (.media .inflight e.clipId) (.media .pending e.clipId)) := by
    refine .bind (within_request (h.fileExists _)) fun there => ?_
    cases there with
    | false => exact within_pure _
    | true =>
      refine .bind (within_request (h.handOff _ _ _)) fun v => ?_
      rcases v with err | _ <;> exact within_pure _
  refine .bind hreturn fun r => ?_
  rcases r with err | _
  · exact within_pure _
  · refine .bind h.within_writeSidecarAtomic fun r => ?_
    rcases r with err | _
    · exact within_pure _
    · exact within_removeIfExists (h.removeFile _)

theorem within_markUndeliverable {kind message : String} {status : Option UInt16} :
    Within P (markUndeliverable e kind status message) :=
  .bind (within_request h.now) fun _ => h.within_transitionDelivered

theorem within_handleUploadError {schedule : BackoffSchedule} {err : ClientError} :
    Within P (handleUploadError schedule e err) := by
  unfold handleUploadError
  split
  · exact .bind (within_request h.now) fun _ => h.within_transitionDelivered
  · split
    · refine .bind (within_request h.now) fun at_ => ?_
      split
      · exact ⟨h.abort, fun v => v.elim⟩
      · exact h.within_transitionBackToPending
      · exact h.within_markUndeliverable
    · exact h.within_markUndeliverable

/-- The second half of `try_once` asks for clock readings and a transition. -/
theorem within_tryOnceFinish {schedule : BackoffSchedule}
    {result : Except ClientError ClassifyTaskPublic} :
    Within P (tryOnceFinish schedule e result) := by
  cases result with
  | ok task => exact .bind (within_request h.now) fun _ => h.within_transitionDelivered
  | error err => exact h.within_handleUploadError

open ClassifyPoller

theorem within_scanLoop (known : Finset ClipId) (paths : List Path) :
    Within P (scanLoop known paths) := by
  have hbudget : ∀ e, Within P (classifyBudgetExhausted e) := by
    intro e
    unfold classifyBudgetExhausted
    split
    · exact within_pure _
    · exact .bind (within_request h.now) fun _ => within_pure _
  induction paths generalizing known with
  | nil => exact within_pure _
  | cons p rest ih =>
    unfold scanLoop
    split_ifs
    · exact ih known
    · refine .bind (within_readSidecar (h.read p)) fun r => ?_
      rcases r with (_ | _ | _ | _) | entry
      · exact ih known
      · exact .bind h.within_quarantineCorrupt fun _ => ih known
      · exact ih known
      · exact ih known
      · dsimp only
        split_ifs
        · refine .bind (hbudget entry) fun exhausted => ?_
          cases exhausted with
          | true =>
            refine .bind (within_request h.now) fun at_ => ?_
            refine .bind h.within_writeSidecarAtomic fun r => ?_
            rcases r with err | _
            · exact within_pure _
            · exact ih _
          | false =>
            refine .bind (ih known) fun r => ?_
            obtain ⟨known', err | entries⟩ := r <;> exact within_pure _
        · exact ih _
    · exact ih known

/-- The scan of a poll round asks the files and the clock. -/
theorem within_scanNonTerminal {known : Finset ClipId} : Within P (scanNonTerminal known) := by
  refine .bind (within_request (h.readDir _)) fun v => ?_
  rcases v with err | paths
  · exact within_pure _
  · exact h.within_scanLoop known paths

end AllowsLocal

end Perchstation
