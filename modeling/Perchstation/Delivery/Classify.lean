import Perchstation.Delivery.Retry
import Perchstation.Perchpub.Client
import Perchstation.Queue.Policy

/-!
# Classify poller — poll and prune rounds (`delivery/classify.rs`)

The poller's set of clip-ids it need not read again is passed through each function.  The display
form of a task id in the polled URL is a parameter.  Telemetry is left out.
-/

namespace Perchstation

inductive PollerError
  | queue (error : QueueError)
  | deliveredIo (path : Path) (source : IoError)

/-- `CLASSIFY_POLL_MAX_HOURS`, as a duration. -/
def classifyPollMax : TimeDelta := 24 * 3600 * nanosPerSec

/-- The entry has a classify task that is neither lost nor finished. -/
def isPollable (entry : ClipQueueEntry) : Bool :=
  entry.classifyTaskId.isSome && entry.classifyLostAt.isNone &&
    !entry.lastClassifyStatus.any (·.isTerminal)

namespace ClassifyPoller

/-- The entry has been pollable for longer than the poll budget. -/
def classifyBudgetExhausted (entry : ClipQueueEntry) : Act Bool := do
  match entry.deliveredAt with
  | none => return false
  | some deliveredAt =>
    let at_ ← now
    return classifyPollMax ≤ at_.since deliveredAt

/-- The scan of `scan_non_terminal` over a directory listing. -/
def scanLoop (seen : Finset ClipId) :
    List Path → Act (Finset ClipId × Except PollerError (List ClipQueueEntry))
  | [] => return (seen, .ok [])
  | path :: rest => do
    if path.hasExt .json then
      if path.fileStem ∈ seen then
        scanLoop seen rest
      else
        match ← QueueStore.readSidecar path with
        | .error (.deserialise _) =>
          let _ ← QueueStore.quarantineCorrupt path
          scanLoop seen rest
        | .error _ => scanLoop seen rest
        | .ok entry =>
          if isPollable entry then
            if ← classifyBudgetExhausted entry then
              let at_ ← now
              let entry := { entry with classifyLostAt := some at_ }
              match ← QueueStore.updateDeliveredSidecar entry with
              | .error err => return (seen, .error (.queue err))
              | .ok () => scanLoop (insert entry.clipId seen) rest
            else
              let (seen, entries) ← scanLoop seen rest
              match entries with
              | .error err => return (seen, .error err)
              | .ok entries => return (seen, .ok (entry :: entries))
          else
            scanLoop (insert entry.clipId seen) rest
    else
      scanLoop seen rest

def scanNonTerminal (seen : Finset ClipId) :
    Act (Finset ClipId × Except PollerError (List ClipQueueEntry)) := do
  match ← readDir .delivered with
  | .error source => return (seen, .error (.deliveredIo (.directory .delivered) source))
  | .ok paths => scanLoop seen paths

/-- `poll_one`; the `expect` on the task id is the abort. -/
def pollOne (client : PerchpubClient) (showUuid : Uuid → String) (seen : Finset ClipId)
    (entry : ClipQueueEntry) : Act (Finset ClipId × Except PollerError Unit) := do
  match entry.classifyTaskId with
  | none => abort (Finset ClipId × Except PollerError Unit)
  | some taskId =>
    match ← client.getClassifyTask showUuid taskId with
    | .ok task =>
      match ← QueueStore.updateDeliveredSidecar
          { entry with lastClassifyStatus := some task.status } with
      | .error err => return (seen, .error (.queue err))
      | .ok () =>
        return (if task.status.isTerminal then insert entry.clipId seen else seen, .ok ())
    | .error err =>
      match classifyPollError err with
      | .transient => return (seen, .ok ())
      | .terminal =>
        let at_ ← now
        match ← QueueStore.updateDeliveredSidecar { entry with classifyLostAt := some at_ } with
        | .error err => return (seen, .error (.queue err))
        | .ok () => return (insert entry.clipId seen, .ok ())

/-- The loop of `poll_round`; returns the number of entries polled. -/
def pollLoop (client : PerchpubClient) (showUuid : Uuid → String) (seen : Finset ClipId) :
    List ClipQueueEntry → Act (Finset ClipId × Except PollerError ℕ)
  | [] => return (seen, .ok 0)
  | entry :: rest => do
    let (seen, polled) ← pollOne client showUuid seen entry
    match polled with
    | .error err => return (seen, .error err)
    | .ok () =>
      let (seen, count) ← pollLoop client showUuid seen rest
      match count with
      | .error err => return (seen, .error err)
      | .ok n => return (seen, .ok (n + 1))

def pollRound (client : PerchpubClient) (showUuid : Uuid → String) (seen : Finset ClipId) :
    Act (Finset ClipId × Except PollerError ℕ) := do
  let (seen, entries) ← scanNonTerminal seen
  match entries with
  | .error err => return (seen, .error err)
  | .ok entries => pollLoop client showUuid seen entries

/-- `i64::saturating_mul`. -/
def saturatingMulI64 (a b : ℤ) : ℤ := max (-2 ^ 63) (min (2 ^ 63 - 1) (a * b))

/-- The instant before which a finished entry is pruned; `none` is a panic. -/
def pruneCutoff (retentionHours : ℤ) (now : DateTime) : Option DateTime := do
  let retention ← TimeDelta.seconds (saturatingMulI64 retentionHours 3600)
  now.sub retention

/-- `prune_round`, with the pruned clip-ids. -/
def pruneRound (retentionHours : ℤ) (seen : Finset ClipId) :
    Act (Finset ClipId × List ClipId) := do
  let at_ ← now
  match pruneCutoff retentionHours at_ with
  | none => abort (Finset ClipId × List ClipId)
  | some cutoff =>
    match ← QueueStore.pruneDelivered cutoff with
    | .ok pruned => return (seen \ pruned.toFinset, pruned)
    | .error _ => return (seen, [])

end ClassifyPoller

end Perchstation
