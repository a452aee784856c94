import Perchstation.Delivery.Classify
import Perchstation.Delivery.Requests
import Perchstation.Race.Sweep

/-!
# Writes — the tasks write nothing into the queue but records

One lemma for each function.  The camera writes outside the queue.
-/

namespace Perchstation

open Resumption QueueStore

/-- Into the queue nothing is written but records. -/
def Req.WritesRecords : Req → Prop
  | .write p (.bytes _) => ∃ name, p = .source name
  | _ => True

namespace Req.WritesRecords

variable {e : ClipQueueEntry} {d : Dir} {c : ClipId} {p : Path} {at_ : DateTime}

theorem allowsScan : AllowsScan WritesRecords :=
  ⟨fun _ => trivial, fun _ => trivial, fun _ => trivial, fun _ => trivial, fun _ => trivial⟩

theorem allowsRecords : AllowsRecords WritesRecords :=
  ⟨fun _ _ => trivial, fun _ => trivial, fun _ _ _ => trivial⟩

theorem allowsLocal : AllowsLocal WritesRecords :=
  { allowsScan, allowsRecords with
    handOff := fun _ _ _ => trivial
    metadata := fun _ => trivial
    now := trivial
    abort := trivial }

/-- A request that writes no bytes, and what follows it. -/
theorem ask_then {α : Type} {r : Req} {f : Rep r → Act α} (hr : r.WritesRecords)
    (hf : ∀ v, Within WritesRecords (f v)) : Within WritesRecords (Prog.request r >>= f) :=
  .bind (within_request hr) hf

/-! ## Boot -/

theorem within_sweepLoop (paths : List Path) : Within WritesRecords (sweepLoop paths) := by
  induction paths with
  | nil => exact within_pure _
  | cons p rest ih =>
    unfold sweepLoop
    split_ifs
    · refine ask_then trivial fun there => ?_
      cases there with
      | true => exact ih
      | false =>
        refine (within_removeIfExists trivial).bind fun r => ?_
        rcases r with err | _
        · exact within_pure _
        · exact ih
    · exact ih

theorem within_sweepOrphanMedia : Within WritesRecords (sweepOrphanMedia d) := by
  refine ask_then trivial fun v => ?_
  rcases v with err | paths
  · exact within_pure _
  · exact within_sweepLoop paths

theorem within_reconcileLoop (paths : List Path) : Within WritesRecords (reconcileLoop paths) := by
  induction paths with
  | nil => exact within_pure _
  | cons p rest ih =>
    refine (within_readSidecar trivial).bind fun r => ?_
    rcases r with err | entry
    · exact within_pure _
    · dsimp only
      split_ifs
      · refine allowsRecords.within_transitionDelivered.bind fun r => ?_
        rcases r with err | _
        · exact within_pure _
        · exact ih
      · refine allowsLocal.within_transitionBackToPending.bind fun r => ?_
        rcases r with err | _
        · exact within_pure _
        · refine ih.bind fun r => ?_
          rcases r with err | recovered <;> exact within_pure _

theorem within_reconcileInflight : Within WritesRecords reconcileInflight := by
  refine within_sweepOrphanMedia.bind fun r => ?_
  rcases r with err | _
  · exact within_pure _
  · refine within_sweepOrphanMedia.bind fun r => ?_
    rcases r with err | _
    · exact within_pure _
    · refine ask_then trivial fun v => ?_
      rcases v with err | paths
      · exact within_pure _
      · exact within_reconcileLoop _

/-! ## Capture -/

theorem within_placeMedia {src dst tmp : Path} : Within WritesRecords (placeMedia src dst tmp) := by
  refine ask_then trivial fun v => ?_
  rcases v with err | _
  · refine ask_then trivial fun v => ?_
    rcases v with err | _
    · exact within_pure _
    · refine ask_then trivial fun v => ?_
      rcases v with err | _
      · exact within_pure _
      · exact ask_then trivial fun _ => within_pure _
  · exact within_pure _

theorem within_enqueueWithId {clipMeta : ClipMeta} :
    Within WritesRecords (enqueueWithId c p clipMeta) := by
  refine ask_then trivial fun v => ?_
  rcases v with err | len
  · exact within_pure _
  · refine within_placeMedia.bind fun r => ?_
    rcases r with err | _
    · exact within_pure _
    · refine ask_then trivial fun at_ => ?_
      refine allowsRecords.within_writeSidecarAtomic.bind fun r => ?_
      rcases r with err | _
      · exact ask_then trivial fun _ => within_pure _
      · exact within_pure _

theorem within_applyPolicy {profile : Profile} {policy : QueuePolicy} {incoming : UInt64} :
    Within WritesRecords (applyPolicy profile policy incoming) :=
  (sweepsOnly_applyPolicy profile policy incoming).mono fun r hr => by
    cases r with
    | write p b => exact hr.elim
    | _ => trivial

theorem within_submit {profile : Profile} {policy : QueuePolicy} {clipMeta : ClipMeta} :
    Within WritesRecords (submit profile policy c p clipMeta) := by
  refine ask_then trivial fun len => within_applyPolicy.bind fun outcome => ?_
  cases outcome.result with
  | error err => exact within_pure _
  | ok =>
    refine within_enqueueWithId.bind fun r => ?_
    rcases r with err | entry <;> exact within_pure _

/-! ## Delivery -/

theorem within_uploadClip {client : PerchpubClient} :
    Within WritesRecords (client.uploadClip p c) := by
  unfold PerchpubClient.uploadClip
  split
  · exact within_pure _
  · refine ask_then trivial fun v => ?_
    rcases v with err | _
    · exact within_pure _
    · refine ask_then trivial fun v => ?_
      rcases v with message | response
      · exact within_pure _
      · exact ask_then trivial fun _ => within_pure _

theorem within_tryOnce {client : PerchpubClient} {schedule : BackoffSchedule} :
    Within WritesRecords (tryOnce client schedule) := by
  have hhead := within_tryOnceHead allowsScan allowsRecords (fun _ _ _ => trivial)
    (fun _ => trivial) trivial
  refine hhead.bind fun r => ?_
  rcases r with err | _ | _ | entry
  · exact within_pure _
  · exact within_pure _
  · exact within_pure _
  · refine within_uploadClip.bind fun result => allowsLocal.within_tryOnceFinish.bind fun r => ?_
    rcases r with err | _ <;> exact within_pure _

/-! ## Classification -/

section Poller

open ClassifyPoller

variable {client : PerchpubClient} {showUuid : Uuid → String}

theorem within_updateDeliveredSidecar : Within WritesRecords (updateDeliveredSidecar e) :=
  allowsRecords.within_writeSidecarAtomic

theorem within_getClassifyTask {id : Uuid} :
    Within WritesRecords (client.getClassifyTask showUuid id) := by
  unfold PerchpubClient.getClassifyTask
  split
  · exact within_pure _
  · refine ask_then trivial fun v => ?_
    rcases v with message | response
    · exact within_pure _
    · exact ask_then trivial fun _ => within_pure _

theorem within_pollOne {known : Finset ClipId} :
    Within WritesRecords (pollOne client showUuid known e) := by
  unfold pollOne
  split
  · exact ⟨trivial, fun v => v.elim⟩
  · refine within_getClassifyTask.bind fun r => ?_
    rcases r with err | task
    · dsimp only
      split
      · exact within_pure _
      · refine ask_then trivial fun at_ => within_updateDeliveredSidecar.bind fun r => ?_
        rcases r with err | _ <;> exact within_pure _
    · refine within_updateDeliveredSidecar.bind fun r => ?_
      rcases r with err | _ <;> exact within_pure _

theorem within_pollLoop (known : Finset ClipId) (entries : List ClipQueueEntry) :
    Within WritesRecords (pollLoop client showUuid known entries) := by
  induction entries generalizing known with
  | nil => exact within_pure _
  | cons entry rest ih =>
    refine within_pollOne.bind fun r => ?_
    obtain ⟨known', err | _⟩ := r
    · exact within_pure _
    · refine (ih known').bind fun r => ?_
      obtain ⟨known'', err | n⟩ := r <;> exact within_pure _

theorem within_pollRound {known : Finset ClipId} :
    Within WritesRecords (pollRound client showUuid known) := by
  refine allowsLocal.within_scanNonTerminal.bind fun r => ?_
  obtain ⟨known', err | entries⟩ := r
  · exact within_pure _
  · exact within_pollLoop known' entries

theorem within_pruneLoop (before : DateTime) (paths : List Path) :
    Within WritesRecords (pruneLoop before paths) := by
  induction paths with
  | nil => exact within_pure _
  | cons p rest ih =>
    unfold pruneLoop
    split_ifs
    · refine (within_readSidecar trivial).bind fun r => ?_
      rcases r with err | sidecar
      · exact ih
      · dsimp only
        split_ifs
        · refine (within_removeIfExists trivial).bind fun r => ?_
          rcases r with err | _
          · exact ih
          · exact ask_then trivial fun _ => ih.bind fun _ => within_pure _
        · exact ih
    · exact ih

theorem within_pruneRound {hours : ℤ} {known : Finset ClipId} :
    Within WritesRecords (pruneRound hours known) := by
  refine ask_then trivial fun at_ => ?_
  split
  · exact ⟨trivial, fun v => v.elim⟩
  · have hprune : ∀ before, Within WritesRecords (pruneDelivered before) := fun before => by
      refine ask_then trivial fun v => ?_
      rcases v with err | paths
      · exact within_pure _
      · exact (within_pruneLoop before paths).bind fun _ => within_pure _
    refine (hprune _).bind fun r => ?_
    rcases r with err | pruned <;> exact within_pure _

end Poller

end Req.WritesRecords

end Perchstation
