import Mathlib.Data.List.Sort
import Mathlib.Data.String.Basic
import Perchstation.Lib.BasicIso
import Perchstation.World

/-!
# Queue store — the directory-of-files queue (`queue/store.rs`)

One program per function of the store, with the source's order of file-system calls and its error
exits.  The loops over a directory listing are functions of the list of paths still to do.
-/

namespace Perchstation.QueueStore

/-- Metadata the capture subsystem hands the queue alongside the clip media. -/
structure ClipMeta where
  capturedAt : DateTime

/-! ## Helpers shared by the transitions -/

/-- Map an `io::Error` to a `QueueError`, detecting `ENOSPC`. -/
def ioToQueueErr (err : IoError) (path : Path) : QueueError :=
  if err = .storageFull then .diskFull path else .io path err

def writeSidecarAtomic (target : Path) (entry : ClipQueueEntry) : Act (Except QueueError Unit) := do
  let tmp := target.withExtension .jsonTmp
  match ← write tmp (.sidecar entry) with
  | .error err => return .error (ioToQueueErr err tmp)
  | .ok () =>
    match ← rename tmp target with
    | .error err => return .error (ioToQueueErr err target)
    | .ok () => return .ok ()

/-- Remove `path`, tolerating an already-absent file. -/
def removeIfExists (path : Path) : Act (Except QueueError Unit) := do
  match ← removeFile path with
  | .ok () => return .ok ()
  | .error .notFound => return .ok ()
  | .error source => return .error (.io path source)

/-- Read and deserialise a single sidecar file. -/
def readSidecar (path : Path) : Act (Except QueueError ClipQueueEntry) := do
  match ← read path with
  | .error source => return .error (.io path source)
  | .ok contents =>
    match contents.decode with
    | some entry => return .ok entry
    | none => return .error (.deserialise path)

/-- `sidecars.sort()`: by file name, within one directory. -/
def sortPaths (paths : List Path) : List Path :=
  paths.insertionSort fun p q => p.fileName ≤ q.fileName

/-! ## Enqueue -/

/-- Rename the source into place, or copy it across file systems. -/
def placeMedia (clipSource mp4Target mp4Tmp : Path) : Act (Except QueueError Unit) := do
  match ← rename clipSource mp4Target with
  | .ok () => return .ok ()
  | .error _ =>
    match ← copy clipSource mp4Tmp with
    | .error source => return .error (.io mp4Tmp source)
    | .ok () =>
      match ← rename mp4Tmp mp4Target with
      | .error source => return .error (.io mp4Target source)
      | .ok () =>
        let _ ← removeFile clipSource
        return .ok ()

def enqueueWithId (clipId : ClipId) (clipSource : Path) (clipMeta : ClipMeta) :
    Act (Except QueueError ClipQueueEntry) := do
  match ← metadata clipSource with
  | .error source => return .error (.io clipSource source)
  | .ok byteSize =>
    let mp4Target := Path.media .pending clipId
    let mp4Tmp := mp4Target.withExtension .mp4Tmp
    match ← placeMedia clipSource mp4Target mp4Tmp with
    | .error err => return .error err
    | .ok () =>
      let enqueuedAt ← now
      let entry := ClipQueueEntry.new clipId clipMeta.capturedAt enqueuedAt byteSize
      match ← writeSidecarAtomic (Path.sidecar .pending clipId) entry with
      | .error err =>
        let _ ← removeFile mp4Target
        return .error err
      | .ok () => return .ok entry

/-- The clip-id for a process whose counter shows `seq`: the capture time in whole seconds, then the
counter. -/
def nextClipId (capturedAt : DateTime) (seq : UInt32) : ClipId :=
  String.ofList (BasicIso.basicIso capturedAt.timestamp ++ '-' :: BasicIso.padded 3 seq.toNat)

/-- The counter `SEQ` is part of the process's state: the caller passes what it shows. -/
def enqueue (seq : UInt32) (clipSource : Path) (clipMeta : ClipMeta) :
    Act (Except QueueError ClipQueueEntry) :=
  enqueueWithId (nextClipId clipMeta.capturedAt seq) clipSource clipMeta

/-! ## Picking and quarantine -/

/-- Move a sidecar that failed to deserialise, and any same-stem media, into `corrupt/`. -/
def quarantineCorrupt (sidecar : Path) : Act (Except QueueError Unit) := do
  match ← createDirAll .corrupt with
  | .error source => return .error (.io (.directory .corrupt) source)
  | .ok () =>
    let dest := sidecar.moveTo .corrupt
    match ← rename sidecar dest with
    | .error source => return .error (.io dest source)
    | .ok () =>
      let mp4 := sidecar.withExtension .mp4
      if ← fileExists mp4 then
        let _ ← rename mp4 (mp4.moveTo .corrupt)
        return .ok ()
      else
        return .ok ()

/-- The scan of `pick_oldest_pending` over the sorted sidecars. -/
def scanPending (now : DateTime) : List Path → Act (Except QueueError (Option ClipQueueEntry))
  | [] => return .ok none
  | path :: rest => do
    match ← readSidecar path with
    | .ok entry =>
      match entry.nextAttemptAfter with
      | some next => if now < next then scanPending now rest else return .ok (some entry)
      | none => return .ok (some entry)
    | .error (.deserialise _) =>
      let _ ← quarantineCorrupt path
      scanPending now rest
    | .error _ => scanPending now rest

/-- The entry of `pending/` with the least file name among those eligible at `now`. -/
def pickOldestPending (now : DateTime) : Act (Except QueueError (Option ClipQueueEntry)) := do
  match ← readDir .pending with
  | .error source => return .error (.io (.directory .pending) source)
  | .ok paths => scanPending now (sortPaths (paths.filter (·.hasExt .json)))

/-- Drop a `pending/` sidecar whose media is missing. -/
def quarantineOrphan (clipId : ClipId) : Act (Except QueueError Unit) := do
  match ← removeIfExists (Path.sidecar .pending clipId) with
  | .error err => return .error err
  | .ok () => removeIfExists (Path.media .pending clipId)

/-! ## Transitions -/

/-- The sidecar of an attempt that starts at `now`. -/
def startAttempt (entry : ClipQueueEntry) (now : DateTime) : ClipQueueEntry :=
  { entry with
    attempts := saturatingAdd32 entry.attempts 1
    firstAttemptAt := some (entry.firstAttemptAt.getD now)
    lastAttemptAt := some now
    nextAttemptAfter := none
    lastError := none }

/-- Move an entry from `pending/` to `inflight/`. -/
def transitionInflight (entry : ClipQueueEntry) (now : DateTime) :
    Act (Except QueueError ClipQueueEntry) := do
  let clipId := entry.clipId
  let pendingMp4 := Path.media .pending clipId
  let pendingSidecar := Path.sidecar .pending clipId
  let inflightMp4 := Path.media .inflight clipId
  let inflightSidecar := Path.sidecar .inflight clipId
  let updated := startAttempt entry now
  match ← rename pendingMp4 inflightMp4 with
  | .error .notFound => return .error (.missingMedia clipId)
  | .error source => return .error (.io inflightMp4 source)
  | .ok () =>
    match ← writeSidecarAtomic inflightSidecar updated with
    | .error err =>
      -- roll the media back, so it is not stranded without a sidecar
      let _ ← rename inflightMp4 pendingMp4
      return .error err
    | .ok () =>
      match ← removeIfExists pendingSidecar with
      | .error err => return .error err
      | .ok () => return .ok updated

/-- Replace the sidecar of an entry that lives in `delivered/`. -/
def updateDeliveredSidecar (entry : ClipQueueEntry) : Act (Except QueueError Unit) :=
  writeSidecarAtomic (Path.sidecar .delivered entry.clipId) entry

/-- The media half of `transition_back_to_pending`. -/
def returnMedia (inflightMp4 pendingMp4 : Path) : Act (Except QueueError Unit) := do
  if ← fileExists inflightMp4 then
    match ← rename inflightMp4 pendingMp4 with
    | .error source => return .error (.io pendingMp4 source)
    | .ok () => return .ok ()
  else
    return .ok ()

/-- Move an entry from `inflight/` back to `pending/`. -/
def transitionBackToPending (entry : ClipQueueEntry) : Act (Except QueueError Unit) := do
  let clipId := entry.clipId
  let inflightMp4 := Path.media .inflight clipId
  let inflightSidecar := Path.sidecar .inflight clipId
  let pendingMp4 := Path.media .pending clipId
  let pendingSidecar := Path.sidecar .pending clipId
  match ← returnMedia inflightMp4 pendingMp4 with
  | .error err => return .error err
  | .ok () =>
    -- a failing sidecar write leaves the media in `pending/`: there is no rollback here
    match ← writeSidecarAtomic pendingSidecar entry with
    | .error err => return .error err
    | .ok () => removeIfExists inflightSidecar

/-- Move an entry from `inflight/` to `delivered/`; the media is unlinked before the rename. -/
def transitionDelivered (entry : ClipQueueEntry) : Act (Except QueueError Unit) := do
  let clipId := entry.clipId
  let inflightMp4 := Path.media .inflight clipId
  let inflightSidecar := Path.sidecar .inflight clipId
  let deliveredSidecar := Path.sidecar .delivered clipId
  match ← writeSidecarAtomic inflightSidecar entry with
  | .error err => return .error err
  | .ok () =>
    match ← removeIfExists inflightMp4 with
    | .error err => return .error err
    | .ok () =>
      match ← rename inflightSidecar deliveredSidecar with
      | .error source => return .error (.io deliveredSidecar source)
      | .ok () => return .ok ()

/-! ## Boot reconciliation -/

/-- The loop of `sweep_orphan_media` over a directory listing. -/
def sweepLoop : List Path → Act (Except QueueError Unit)
  | [] => return .ok ()
  | path :: rest => do
    if path.hasExt .mp4 then
      if ← fileExists (path.withExtension .json) then
        sweepLoop rest
      else
        match ← removeIfExists path with
        | .error err => return .error err
        | .ok () => sweepLoop rest
    else
      sweepLoop rest

/-- Remove every `*.mp4` of the directory whose `*.json` is absent. -/
def sweepOrphanMedia (dir : Dir) : Act (Except QueueError Unit) := do
  match ← readDir dir with
  | .error source => return .error (.io (.directory dir) source)
  | .ok paths => sweepLoop paths

/-- What a re-queued entry carries after a restart. -/
def requeued (entry : ClipQueueEntry) : ClipQueueEntry :=
  { entry with nextAttemptAfter := none, lastError := none }

/-- The loop of `reconcile_inflight` over the sorted sidecars. -/
def reconcileLoop : List Path → Act (Except QueueError (List ClipQueueEntry))
  | [] => return .ok []
  | sidecar :: rest => do
    match ← readSidecar sidecar with
    | .error err => return .error err
    | .ok entry =>
      if entry.isTerminal then
        -- finish the interrupted `transition_delivered`
        match ← transitionDelivered entry with
        | .error err => return .error err
        | .ok () => reconcileLoop rest
      else
        match ← transitionBackToPending (requeued entry) with
        | .error err => return .error err
        | .ok () =>
          match ← reconcileLoop rest with
          | .error err => return .error err
          | .ok recovered => return .ok (requeued entry :: recovered)

/-- Move every entry of `inflight/` back to `pending/`, or on to `delivered/` if it is terminal. -/
def reconcileInflight : Act (Except QueueError (List ClipQueueEntry)) := do
  match ← sweepOrphanMedia .pending with
  | .error err => return .error err
  | .ok () =>
    match ← sweepOrphanMedia .inflight with
    | .error err => return .error err
    | .ok () =>
      match ← readDir .inflight with
      | .error source => return .error (.io (.directory .inflight) source)
      | .ok paths => reconcileLoop (sortPaths (paths.filter (·.hasExt .json)))

end Perchstation.QueueStore
