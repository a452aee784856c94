import Perchstation.Delivery.Retry
import Perchstation.Perchpub.Client
import Perchstation.Queue.Store

/-!
# Delivery runner — one iteration of the upload loop (`delivery/runner.rs`)

`tryOnce` is cut at its only await: `tryOnceHead` picks a clip, moves it to `inflight/` and checks
it; `tryOnceFinish` records what the upload came to.  Telemetry is left out.
-/

namespace Perchstation

/-- `MAX_UPLOAD_BYTES`: 50 MiB. -/
def maxUploadBytes : ℕ := 50 * 1024 * 1024

/-- The reason the file must not be uploaded, if there is one. -/
def preflightCheck (clipPath : Path) : Act (Option String) := do
  match ← metadata clipPath with
  | .ok len =>
    if len.toNat = 0 then return some "zero_length"
    else if maxUploadBytes < len.toNat then return some "oversize"
    else return none
  | .error _ => return some "unreadable"

/-! ## The records an attempt can end with -/

def deliveredRecord (entry : ClipQueueEntry) (task : ClassifyTaskPublic) (at_ : DateTime) :
    ClipQueueEntry :=
  { entry with
    outcome := some .delivered
    classifyTaskId := some task.id
    deliveredAt := some at_
    lastClassifyStatus := some task.status
    lastError := none }

/-- The record of an accepted upload whose answer did not decode. -/
def undecodableRecord (entry : ClipQueueEntry) (at_ : DateTime) : ClipQueueEntry :=
  { entry with
    outcome := some .delivered
    classifyTaskId := none
    lastClassifyStatus := some .unknown
    deliveredAt := some at_
    lastError := none }

def undeliverableRecord (entry : ClipQueueEntry) (at_ : DateTime) (kind : String)
    (status : Option UInt16) (message : String) : ClipQueueEntry :=
  { entry with
    outcome := some .undeliverable
    deliveredAt := some at_
    lastError := some ⟨kind, status, message⟩ }

def retryRecord (entry : ClipQueueEntry) (next : DateTime) (kind : String)
    (status : Option UInt16) (message : String) : ClipQueueEntry :=
  { entry with
    nextAttemptAfter := some next
    lastError := some ⟨kind, status, message⟩ }

/-! ## First half: up to the await -/

/-- What the first half of `try_once` comes to. -/
inductive Head
  | idle
  | progressed
  | upload (entry : ClipQueueEntry)

/-- The clip just moved to `inflight/` is uploaded if it passes its pre-flight check. -/
def startUpload (entry : ClipQueueEntry) : Act (Except QueueError Head) := do
  match ← preflightCheck (Path.media .inflight entry.clipId) with
  | none => return .ok (.upload entry)
  | some reason =>
    let at_ ← now
    let message := "pre-flight " ++ reason ++ " for " ++ entry.clipId
    match ← QueueStore.transitionDelivered (undeliverableRecord entry at_ reason none message) with
    | .error err => return .error err
    | .ok () => return .ok .progressed

/-- `try_once` up to the upload. -/
def tryOnceHead : Act (Except QueueError Head) := do
  let at_ ← now
  match ← QueueStore.pickOldestPending at_ with
  | .error err => return .error err
  | .ok none => return .ok .idle
  | .ok (some entry) =>
    match ← QueueStore.transitionInflight entry at_ with
    | .error (.missingMedia clipId) =>
      match ← QueueStore.quarantineOrphan clipId with
      | .error err => return .error err
      | .ok () => return .ok .progressed
    | .error err => return .error err
    | .ok entry => startUpload entry

/-! ## Second half: after the await -/

/-- What `mark_terminal` and `mark_attempts_exhausted` have in common: all but telemetry. -/
def markUndeliverable (entry : ClipQueueEntry) (kind : String) (status : Option UInt16)
    (message : String) : Act (Except QueueError Unit) := do
  let at_ ← now
  QueueStore.transitionDelivered (undeliverableRecord entry at_ kind status message)

def markTerminal (entry : ClipQueueEntry) (kind : String) (status : Option UInt16)
    (message : String) : Act (Except QueueError Unit) :=
  markUndeliverable entry kind status message

def markAttemptsExhausted (entry : ClipQueueEntry) (kind : String) (status : Option UInt16)
    (message : String) : Act (Except QueueError Unit) :=
  markUndeliverable entry kind status message

def markDeliveredUndecodable (entry : ClipQueueEntry) : Act (Except QueueError Unit) := do
  let at_ ← now
  QueueStore.transitionDelivered (undecodableRecord entry at_)

/-- The status a client error carries. -/
def ClientError.status : ClientError → Option UInt16
  | .http _ status _ _ => some status
  | _ => none

/-- The `Retry-After` a client error carries. -/
def ClientError.retryAfter : ClientError → Option StdDuration
  | .http _ _ _ retryAfter => retryAfter
  | _ => none

/-- The transient arm of `handle_upload_error`. -/
def retryOrGiveUp (schedule : BackoffSchedule) (entry : ClipQueueEntry) (err : ClientError) :
    Act (Except QueueError Unit) := do
  let at_ ← now
  match schedule.schedule at_ entry.attempts entry.firstAttemptAt err.retryAfter with
  | none => abort (Except QueueError Unit)
  | some (.retry next) =>
    QueueStore.transitionBackToPending
      (retryRecord entry next (errorKind err) err.status err.display)
  | some .exhausted => markAttemptsExhausted entry (errorKind err) err.status err.display

def handleUploadError (schedule : BackoffSchedule) (entry : ClipQueueEntry) (err : ClientError) :
    Act (Except QueueError Unit) :=
  match err with
  | .undecodableSuccess _ _ => markDeliveredUndecodable entry
  | err =>
    match classifyUploadError err with
    | .transient => retryOrGiveUp schedule entry err
    | .terminal => markTerminal entry (errorKind err) err.status err.display

/-- `try_once` after the upload. -/
def tryOnceFinish (schedule : BackoffSchedule) (entry : ClipQueueEntry)
    (result : Except ClientError ClassifyTaskPublic) : Act (Except QueueError Unit) :=
  match result with
  | .ok task => do
    let at_ ← now
    QueueStore.transitionDelivered (deliveredRecord entry task at_)
  | .error err => handleUploadError schedule entry err

/-- `try_once`; `true` means progress on a clip. -/
def tryOnce (client : PerchpubClient) (schedule : BackoffSchedule) :
    Act (Except QueueError Bool) := do
  match ← tryOnceHead with
  | .error err => return .error err
  | .ok .idle => return .ok false
  | .ok .progressed => return .ok true
  | .ok (.upload entry) =>
    let result ← client.uploadClip (Path.media .inflight entry.clipId) entry.clipId
    match ← tryOnceFinish schedule entry result with
    | .error err => return .error err
    | .ok () => return .ok true

end Perchstation
